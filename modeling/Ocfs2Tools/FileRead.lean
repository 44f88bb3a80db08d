import Ocfs2Tools.ExtentMap

/-!
# Reading a file: `ocfs2_file_read`

An inline file is copied out of the inode. A file with extents is read run by run:
`ocfs2_extent_map_get_blocks` says where the next block is and how many follow it,
holes and unwritten extents read as zeros. `fileContent` is what the file holds, and
the two paths are compared with it.

Block reads succeed; a read that goes on for ever is `none`, as an abort is.
-/

namespace Ocfs2Tools

open List Prog ExtentRec

variable (fs : Filesys)
  {di : Dinode} {v lo n m ptr count offset : Nat} {recs : List ExtentRec} {c : Clusters}
  {s : St} {dev : Device} {el : ExtentList}

/-! ### The functions of `extent_map.c` and `fileio.c` -/

/-- The three values `ocfs2_extent_map_get_blocks` stores. -/
structure Blocks where
  pBlkno : Nat
  retCount : Nat
  extentFlags : Nat
deriving DecidableEq, Repr

/-- `ocfs2_extent_map_get_blocks`; the `count` it is given is never used. -/
def extentMapGetBlocks (di : Dinode) (vBlkno : Nat) : M Blocks := do
  let c ← getClusters fs di (blocksToClusters fs vBlkno)
  pure ⟨if c.pCluster ≠ 0 then clustersToBlocks fs c.pCluster + vBlkno % fs.bpc else 0,
    subW 64 (clustersToBlocks fs c.numClusters) (vBlkno % fs.bpc), c.extentFlags⟩

/-- `ocfs2_read_blocks`. -/
def readBlocks (blkno count : Nat) : M (List UInt8) := fun s =>
  some (.ok ((List.range' blkno count).flatMap s.dev.blocks), s)

/-- What `ocfs2_inline_data_read` stores: the number of bytes, and the bytes it copies
    as far as they lie in the inode. -/
def inlineDataRead (di : Dinode) (count offset : Nat) : M (Nat × List UInt8) :=
  if hasFlag di.iDynFeatures inlineDataFl = false then fail .invalidArgument
  else if di.idCount < offset then pure (0, [])
  else
    let got := min (subW 64 di.iSize offset) count
    pure (got, (di.idData.drop offset).take got)

def zeroBlocks (count : Nat) : List UInt8 :=
  List.replicate (count * fs.fsBlocksize) 0

/-- The bytes of one run: a hole or an unwritten extent is emptied, anything else read. -/
def readRun (b : Blocks) (contigBlocks : Nat) : M (List UInt8) :=
  if b.pBlkno = 0 ∨ hasFlag b.extentFlags extUnwritten then pure (zeroBlocks fs contigBlocks)
  else readBlocks b.pBlkno contigBlocks

/-- The loop of `ocfs2_file_read`. Every turn reads at least one block; a turn that
    reads none would be repeated for ever. -/
def fileReadLoop (fs : Filesys) (di : Dinode) (offset : Nat) :
    Nat → Nat → Nat → Nat → M (Nat × List UInt8)
  | 0, _, _, got => pure (got, [])
  | n + 1, wantedBlocks, vBlkno, got => do
    let b ← extentMapGetBlocks fs di vBlkno
    let contigBlocks := min b.retCount wantedBlocks
    if contigBlocks = 0 then abort
    else do
      let bytes ← readRun fs b contigBlocks
      let got := addW 32 got (contigBlocks * fs.fsBlocksize)
      if wantedBlocks - contigBlocks ≠ 0 then do
        let (got, rest) ← fileReadLoop fs di offset n (wantedBlocks - contigBlocks)
          (vBlkno + contigBlocks) got
        pure (got, bytes ++ rest)
      else pure (if di.iSize < addW 64 got offset then subW 64 di.iSize offset % 2 ^ 32 else got,
        bytes)

/-- The alignment check of `ocfs2_file_read`; `ptr` is the address of the buffer. -/
def readAligned (ptr count offset : Nat) : Bool :=
  decide (count % fs.fsBlocksize = 0 ∧ offset % fs.fsBlocksize = 0 ∧ ptr % fs.fsBlocksize = 0)

/-- `ocfs2_file_read`. -/
def fileRead (di : Dinode) (ptr count offset : Nat) : M (Nat × List UInt8) :=
  if hasFlag di.iDynFeatures inlineDataFl then inlineDataRead di count offset
  else if readAligned fs ptr count offset = false then fail .invalidArgument
  else
    let wantedBlocks := count / fs.fsBlocksize
    let vBlkno := offset / fs.fsBlocksize
    let numBlocks := addW 64 di.iSize (fs.fsBlocksize - 1) / fs.fsBlocksize
    if numBlocks ≤ vBlkno then pure (0, [])
    else
      let wantedBlocks :=
        if numBlocks < vBlkno + wantedBlocks then numBlocks - vBlkno else wantedBlocks
      fileReadLoop fs di offset wantedBlocks wantedBlocks vBlkno 0

/-! ### What a file holds -/

def fileBlock (dev : Device) (el : ExtentList) (v : Nat) : List UInt8 :=
  match treeMap fs dev.ebs el (v / fs.bpc) with
  | some (blkno, flags) =>
    if hasFlag flags extUnwritten then zeroBlocks fs 1 else dev.blocks (blkno + v % fs.bpc)
  | none => zeroBlocks fs 1

def fileContent (dev : Device) (di : Dinode) : List UInt8 :=
  if hasFlag di.iDynFeatures inlineDataFl then di.idData.take di.iSize
  else ((List.range ((di.iSize + fs.fsBlocksize - 1) / fs.fsBlocksize)).flatMap
    (fileBlock fs dev di.iList)).take di.iSize

/-- An inode whose data can be read: inline data that fits `id_count`, or a well-formed
    extent tree on a device with blocks of one size. -/
def FileOk (dev : Device) (di : Dinode) : Prop :=
  if hasFlag di.iDynFeatures inlineDataFl then
    di.idData.length = di.idCount ∧ di.idCount < 65536 ∧ di.iSize ≤ di.idCount
  else WfTree fs dev.ebs di ∧ di.iSize < 2 ^ 64 ∧ ∀ b, (dev.blocks b).length = fs.fsBlocksize

/-- A successful read returns the bytes of the file from `offset` on, as many as there
    are and at most `count`. -/
def ReadsContent (di : Dinode) (ptr count offset : Nat) (s : St) : Prop :=
  ∀ got buf t, fileRead fs di ptr count offset s = some (.ok (got, buf), t) →
    got = min count (di.iSize - offset) ∧
      buf.take got = ((fileContent fs s.dev di).drop offset).take got

/-! ### Looking up a block -/

variable {fs}

theorem WfTree.recs_spaced {ebs : Nat → Option ExtentBlock} (hw : WfTree fs ebs di) :
    Spaced eCpos eLeafClusters 0 (diskRecs ebs di.iList) uint32Max := by
  obtain ⟨ks, hread, hroot⟩ := hw
  rw [diskRecs, hread]
  exact hroot.recs_spaced

theorem WfTree.map_none {ebs : Nat → Option ExtentBlock} (hw : WfTree fs ebs di)
    (hv : uint32Max ≤ v) : treeMap fs ebs di.iList v = none := by
  refine recsMap_eq_none.mpr fun r hr hc => ?_
  have h1 := (hw.recs_spaced.mem_bounds r hr).2.2
  have h2 := hc.2
  omega

/-- The clusters a lookup counts have one kind of content: they lie one behind the other
    on the device with one set of flags, or are not mapped at all. -/
theorem LookupOk.run {hi : Nat} (hs : Spaced eCpos eLeafClusters lo recs hi)
    (hok : ∀ r ∈ recs, RecOk fs r) (h : LookupOk fs recs v c) {w : Nat} (hw : v ≤ w)
    (hlt : w < v + c.numClusters) : recsMap fs recs w = if c.pCluster = 0 then none
      else some (clustersToBlocks fs (c.pCluster + (w - v)), c.extentFlags) := by
  rw [LookupOk] at h
  cases hm : recsMap fs recs v with
  | none =>
    rw [hm] at h
    rw [if_pos h.1]
    exact h.2.2.1 w hw hlt
  | some x =>
    rw [hm] at h
    obtain ⟨hp, hf, r, hr, hc, hend⟩ := h
    have hcw : Covers eCpos eLeafClusters r w :=
      ⟨le_trans hc.1 hw, by omega⟩
    have hmv := hm.symm.trans (recsMap_of_mem hs hr hc)
    rw [Option.some.injEq, Prod.mk.injEq] at hmv
    have hne : c.pCluster ≠ 0 := by
      intro h0
      rw [h0] at hp
      have hb := (hok r hr).blkno_ne
      simp only [clustersToBlocks, Nat.zero_mul] at hp hmv
      omega
    rw [recsMap_of_mem hs hr hcw, if_neg hne, hf, hmv.2]
    have hcpos := hc.1
    have hsum : w - r.eCpos = (v - r.eCpos) + (w - v) := by omega
    simp only [clustersToBlocks] at hp hmv ⊢
    rw [hsum, Nat.add_mul, Nat.add_mul, hp, hmv.1, Nat.add_assoc]

theorem WfTree.recs_ok {ebs : Nat → Option ExtentBlock} (hw : WfTree fs ebs di) :
    ∀ r ∈ diskRecs ebs di.iList, RecOk fs r := by
  obtain ⟨ks, hread, hroot⟩ := hw
  rw [diskRecs, hread]
  cases hd : di.iList.lTreeDepth with
  | zero =>
    intro r hr
    have h := hroot.leaf hd
    exact h.recs r (h.nonempty_eq ▸ hr)
  | succ d =>
    have := hroot.node (by omega)
    rw [hd] at this
    exact this.recs_ok

theorem LookupOk.num_pos (h : LookupOk fs recs v c) (hv : v < uint32Max) : 0 < c.numClusters := by
  rw [LookupOk] at h
  cases hm : recsMap fs recs v with
  | none =>
    rw [hm] at h
    obtain ⟨-, -, -, hsome | ⟨-, hend⟩⟩ := h
    · by_contra h0
      have hz : c.numClusters = 0 := by omega
      rw [hz, Nat.add_zero, hm] at hsome
      cases hsome
    · omega
  | some x =>
    rw [hm] at h
    obtain ⟨-, -, r, -, hc, hend⟩ := h
    have := hc.2
    omega

theorem LookupOk.num_le (hs : Spaced eCpos eLeafClusters lo recs uint32Max)
    (h : LookupOk fs recs v c) : v + c.numClusters ≤ uint32Max := by
  rw [LookupOk] at h
  cases hm : recsMap fs recs v with
  | none =>
    rw [hm] at h
    obtain ⟨-, -, -, hsome | ⟨-, hend⟩⟩ := h
    · by_contra hgt
      have hnone : recsMap fs recs (v + c.numClusters) = none := by
        refine recsMap_eq_none.mpr fun r hr hc => ?_
        have h1 := (hs.mem_bounds r hr).2.2
        have h2 := hc.2
        omega
      rw [hnone] at hsome
      cases hsome
    · omega
  | some x =>
    rw [hm] at h
    obtain ⟨-, -, r, hr, -, hend⟩ := h
    have := (hs.mem_bounds r hr).2.2
    omega

/-- `n` blocks of the file from `v` on are what `b` says: on the device from `pBlkno` on,
    or zeros. -/
def RunOk (fs : Filesys) (dev : Device) (el : ExtentList) (v : Nat) (b : Blocks) (n : Nat) : Prop :=
  ∀ j < n, fileBlock fs dev el (v + j) =
    if b.pBlkno = 0 ∨ hasFlag b.extentFlags extUnwritten then zeroBlocks fs 1
    else dev.blocks (b.pBlkno + j)

theorem block_split (bpc v j : Nat) :
    v % bpc + j = ((v + j) / bpc - v / bpc) * bpc + (v + j) % bpc := by
  have h1 := Nat.div_add_mod v bpc
  have h2 := Nat.div_add_mod (v + j) bpc
  have hle : v / bpc ≤ (v + j) / bpc := Nat.div_le_div_right (Nat.le_add_right v j)
  rw [Nat.sub_mul, Nat.mul_comm _ bpc, Nat.mul_comm _ bpc]
  have := Nat.mul_le_mul_left bpc hle
  omega

theorem block_in_clusters {bpc j : Nat} (hj : j < n * bpc - v % bpc) :
    (v + j) / bpc < v / bpc + n := by
  have hv := Nat.div_add_mod v bpc
  refine Nat.div_lt_of_lt_mul ?_
  rw [Nat.mul_add, Nat.mul_comm bpc n]
  omega

section Tree

variable (hw : WfTree fs s.dev.ebs di)
include hw

theorem extentMapGetBlocks_clusters (hv : v < uint32Max * fs.bpc) :
    ∃ c, extentMapGetBlocks fs di v s =
        some (.ok ⟨if c.pCluster ≠ 0 then clustersToBlocks fs c.pCluster + v % fs.bpc else 0,
          c.numClusters * fs.bpc - v % fs.bpc, c.extentFlags⟩, s) ∧
      LookupOk fs (diskRecs s.dev.ebs di.iList) (v / fs.bpc) c ∧ 0 < c.numClusters ∧
      v / fs.bpc + c.numClusters ≤ uint32Max := by
  have hmod := Nat.mod_lt v fs.bpc_pos
  have hlt : v / fs.bpc < uint32Max := Nat.div_lt_of_lt_mul (by rw [Nat.mul_comm]; exact hv)
  have hcl : blocksToClusters fs v = v / fs.bpc := by
    rw [blocksToClusters, if_neg (by omega)]
  obtain ⟨c, hrun, hc⟩ := getClusters_lookup hw (v := blocksToClusters fs v) (by omega)
  have hnum := hc.num_le hw.recs_spaced
  have hnpos := hc.num_pos (by omega)
  -- the count fits 64 bits, and the first cluster holds more blocks than are skipped in it
  have hone : 1 * fs.bpc ≤ c.numClusters * fs.bpc := Nat.mul_le_mul_right _ hnpos
  have hle : c.numClusters * fs.bpc ≤ uint32Max * 2048 :=
    Nat.mul_le_mul (by omega) fs.bpc_le
  have hcount : subW 64 (clustersToBlocks fs c.numClusters) (v % fs.bpc) =
      c.numClusters * fs.bpc - v % fs.bpc := by
    rw [clustersToBlocks]
    unfold uint32Max at hle
    exact subW_eq (by omega) (by omega)
  refine ⟨c, ?_, hcl ▸ hc, hnpos, hcl ▸ hnum⟩
  rw [← hcount]
  exact bind_ok hrun _

theorem extentMapGetBlocks_below (hv : v < uint32Max * fs.bpc) :
    ∃ b, extentMapGetBlocks fs di v s = some (.ok b, s) ∧
      RunOk fs s.dev di.iList v b b.retCount ∧ 0 < b.retCount ∧
      v + b.retCount ≤ uint32Max * fs.bpc := by
  have hpos := fs.bpc_pos
  have hmod := Nat.mod_lt v hpos
  obtain ⟨c, hrun, hc, hnpos, hnum⟩ := extentMapGetBlocks_clusters hw hv
  have hmul : (v / fs.bpc + c.numClusters) * fs.bpc ≤ uint32Max * fs.bpc :=
    Nat.mul_le_mul_right _ hnum
  have hone : 1 * fs.bpc ≤ c.numClusters * fs.bpc := Nat.mul_le_mul_right _ hnpos
  have hv' := Nat.div_add_mod v fs.bpc
  rw [Nat.mul_comm] at hv'
  rw [Nat.add_mul] at hmul
  refine ⟨_, hrun, ?_, ?_, ?_⟩
  · intro j hj
    have hle : v / fs.bpc ≤ (v + j) / fs.bpc := Nat.div_le_div_right (Nat.le_add_right v j)
    have hmap := hc.run hw.recs_spaced hw.recs_ok hle (block_in_clusters hj)
    rw [fileBlock, treeMap, hmap]
    by_cases h0 : c.pCluster = 0
    · simp [h0]
    · have hne : clustersToBlocks fs c.pCluster + v % fs.bpc ≠ 0 := by
        have := Nat.mul_pos (Nat.pos_of_ne_zero h0) hpos
        unfold clustersToBlocks
        omega
      simp only [h0, if_false, ne_eq, not_false_eq_true, if_true, hne, false_or]
      split
      · rfl
      · have := block_split fs.bpc v j
        simp only [clustersToBlocks, Nat.add_mul]
        congr 1
        omega
  · show 0 < c.numClusters * fs.bpc - v % fs.bpc
    omega
  · show v + (c.numClusters * fs.bpc - v % fs.bpc) ≤ _
    omega

theorem extentMapGetBlocks_past (hv : uint32Max * fs.bpc ≤ v) :
    extentMapGetBlocks fs di v s = some (.ok ⟨0, subW 64 0 (v % fs.bpc), 0⟩, s) := by
  have hdiv : uint32Max ≤ v / fs.bpc := (Nat.le_div_iff_mul_le fs.bpc_pos).mpr hv
  have hcl : blocksToClusters fs v = uint32Max := by
    unfold blocksToClusters
    split <;> omega
  obtain ⟨c, hrun, hc⟩ := getClusters_lookup hw (v := blocksToClusters fs v) (by omega)
  rw [hcl] at hc
  have hnum : c.numClusters = 0 := by
    have := hc.num_le hw.recs_spaced
    omega
  have hnone := hw.map_none (le_refl uint32Max)
  rw [treeMap] at hnone
  rw [LookupOk, hnone] at hc
  obtain ⟨hp, hf, -⟩ := hc
  rw [extentMapGetBlocks, bind_ok hrun, hp, hf, hnum, clustersToBlocks, Nat.zero_mul]
  rfl

theorem extentMapGetBlocks_behind (hv : uint32Max * fs.bpc ≤ v) :
    ∃ b, extentMapGetBlocks fs di v s = some (.ok b, s) ∧
      RunOk fs s.dev di.iList v b b.retCount := by
  have hdiv : uint32Max ≤ v / fs.bpc := (Nat.le_div_iff_mul_le fs.bpc_pos).mpr hv
  refine ⟨_, extentMapGetBlocks_past hw hv, fun j _ => ?_⟩
  have hle : v / fs.bpc ≤ (v + j) / fs.bpc := Nat.div_le_div_right (Nat.le_add_right v j)
  rw [fileBlock, hw.map_none (le_trans hdiv hle)]
  simp

/-- **`ocfs2_extent_map_get_blocks`** on a well-formed tree: the run it returns is right,
    and it is empty only behind the last cluster a file can have. -/
theorem extentMapGetBlocks_spec (v : Nat) :
    ∃ b, extentMapGetBlocks fs di v s = some (.ok b, s) ∧ RunOk fs s.dev di.iList v b b.retCount ∧
      (v < uint32Max * fs.bpc → 0 < b.retCount) := by
  by_cases hv : v < uint32Max * fs.bpc
  · obtain ⟨b, h1, h2, h3, -⟩ := extentMapGetBlocks_below hw hv
    exact ⟨b, h1, h2, fun _ => h3⟩
  · obtain ⟨b, h1, h2⟩ := extentMapGetBlocks_behind hw (Nat.le_of_not_lt hv)
    exact ⟨b, h1, h2, fun h => absurd h hv⟩

end Tree

/-! ### The loop -/

variable {b : Blocks}

theorem RunOk.mono (h : RunOk fs dev el v b n) (hmn : m ≤ n) : RunOk fs dev el v b m :=
  fun j hj => h j (lt_of_lt_of_le hj hmn)

def fileBlocks (fs : Filesys) (dev : Device) (el : ExtentList) (v n : Nat) : List UInt8 :=
  (List.range' v n).flatMap (fileBlock fs dev el)

theorem fileBlocks_add (dev : Device) (el : ExtentList) (v m n : Nat) :
    fileBlocks fs dev el v (m + n) =
      fileBlocks fs dev el v m ++ fileBlocks fs dev el (v + m) n := by
  rw [fileBlocks, ← range'_append_1, flatMap_append]
  rfl

theorem zeroBlocks_eq : ∀ n : Nat, zeroBlocks fs n = (List.range n).flatMap fun _ => zeroBlocks fs 1
  | 0 => by simp [zeroBlocks]
  | n + 1 => by
    rw [range_succ, flatMap_append, ← zeroBlocks_eq n]
    simp [zeroBlocks, Nat.add_mul]

theorem RunOk.bytes (h : RunOk fs s.dev el v b n) :
    readRun fs b n s = some (.ok (fileBlocks fs s.dev el v n), s) := by
  have hmap : fileBlocks fs s.dev el v n = (List.range n).flatMap fun j =>
      fileBlock fs s.dev el (v + j) := by
    rw [fileBlocks, range'_eq_map_range, flatMap_map]
  rw [hmap, readRun]
  split
  · next hz =>
    rw [zeroBlocks_eq, pure_run]
    congr 3
    refine flatMap_congr fun j hj => ?_
    rw [h j (mem_range.mp hj), if_pos hz]
  · next hz =>
    rw [readBlocks, range'_eq_map_range, flatMap_map]
    congr 3
    refine flatMap_congr fun j hj => ?_
    rw [h j (mem_range.mp hj), if_neg hz]

/-- **The loop of `ocfs2_file_read`** fills the buffer with the blocks it was asked for and
    cuts the count at the end of the file. It only fails to end when it is asked for
    blocks behind the last cluster a file can have. -/
theorem fileReadLoop_spec (hw : WfTree fs s.dev.ebs di) (hsize : di.iSize < 2 ^ 64)
    (hoff : offset ≤ di.iSize) :
    ∀ n wanted v got, 0 < wanted → wanted ≤ n → got + wanted * fs.fsBlocksize < 2 ^ 32 →
      got + wanted * fs.fsBlocksize + offset < 2 ^ 64 →
      fileReadLoop fs di offset n wanted v got s = some (.ok
          (min (got + wanted * fs.fsBlocksize) (di.iSize - offset),
            fileBlocks fs s.dev di.iList v wanted), s) ∨
        fileReadLoop fs di offset n wanted v got s = none ∧ uint32Max * fs.bpc < v + wanted
  | 0, wanted, _, _, h0, hn, _, _ => by omega
  | n + 1, wanted, v, got, h0, hn, hgot, hend => by
    obtain ⟨b, hrun, hb, hpos⟩ := extentMapGetBlocks_spec hw v
    rw [fileReadLoop, bind_ok hrun]
    by_cases hz : min b.retCount wanted = 0
    · right
      rw [if_pos hz]
      refine ⟨rfl, ?_⟩
      omega
    · have hle := min_le_right b.retCount wanted
      have hbytes := (hb.mono (min_le_left b.retCount wanted)).bytes
      generalize min b.retCount wanted = m at hz hle hbytes ⊢
      obtain ⟨rest, rfl⟩ := Nat.exists_eq_add_of_le hle
      rw [Nat.add_mul] at hgot hend
      have hadd : addW 32 got (m * fs.fsBlocksize) = got + m * fs.fsBlocksize :=
        addW_eq (by omega)
      simp only [if_neg hz, bind_ok hbytes, hadd, Nat.add_sub_cancel_left]
      by_cases hrest : rest = 0
      · left
        subst hrest
        have h64 : addW 64 (got + m * fs.fsBlocksize) offset =
            got + m * fs.fsBlocksize + offset := addW_eq (by omega)
        have hsub : subW 64 di.iSize offset = di.iSize - offset := subW_eq hoff hsize
        simp only [ne_eq, not_true_eq_false, if_false, pure_run, h64, hsub, Nat.add_zero]
        split
        · rw [Nat.mod_eq_of_lt (by omega), Nat.min_eq_right (by omega)]
        · rw [Nat.min_eq_left (by omega)]
      · simp only [ne_eq, hrest, not_false_eq_true, if_true]
        rcases fileReadLoop_spec hw hsize hoff n rest (v + m) (got + m * fs.fsBlocksize)
          (by omega) (by omega) (by omega) (by omega) with hih | ⟨hih, hv⟩
        · left
          rw [bind_ok hih, pure_run, fileBlocks_add, Nat.add_mul, Nat.add_assoc]
        · right
          rw [bind_abort hih]
          exact ⟨rfl, by omega⟩

/-! ### The file -/

theorem Filesys.fsBlocksize_pos (fs : Filesys) : 0 < fs.fsBlocksize := Nat.two_pow_pos _

variable (hlen : ∀ b, (dev.blocks b).length = fs.fsBlocksize) (el : ExtentList)
include hlen

theorem fileBlock_length (v : Nat) : (fileBlock fs dev el v).length = fs.fsBlocksize := by
  unfold fileBlock
  split
  · split
    · simp [zeroBlocks]
    · exact hlen _
  · simp [zeroBlocks]

theorem fileBlocks_length : ∀ v n, (fileBlocks fs dev el v n).length = n * fs.fsBlocksize
  | _, 0 => by simp [fileBlocks]
  | v, n + 1 => by
    have hone : (fileBlocks fs dev el v 1).length = fs.fsBlocksize := by
      simp [fileBlocks, fileBlock_length hlen]
    rw [Nat.add_comm n 1, fileBlocks_add, length_append, hone,
      fileBlocks_length (v + 1) n, Nat.add_mul, Nat.one_mul]

theorem content_slice {size got : Nat} (hm : v + m ≤ n) (hgot : got ≤ m * fs.fsBlocksize)
    (hsize : got + v * fs.fsBlocksize ≤ size) :
    (((fileBlocks fs dev el 0 n).take size).drop (v * fs.fsBlocksize)).take got =
      (fileBlocks fs dev el v m).take got := by
  obtain ⟨k, rfl⟩ := Nat.exists_eq_add_of_le hm
  rw [fileBlocks_add, fileBlocks_add, Nat.zero_add, drop_take, take_take,
    min_eq_left (by omega), append_assoc]
  have hl : v * fs.fsBlocksize = (fileBlocks fs dev el 0 v).length :=
    (fileBlocks_length hlen el 0 v).symm
  rw [hl, drop_left, take_append_of_le_length]
  rw [fileBlocks_length hlen]
  exact hgot

omit hlen

theorem FileOk.extents (h : FileOk fs dev di)
    (hinl : hasFlag di.iDynFeatures inlineDataFl = false) :
    WfTree fs dev.ebs di ∧ di.iSize < 2 ^ 64 ∧ ∀ b, (dev.blocks b).length = fs.fsBlocksize := by
  rwa [FileOk, hinl, if_neg Bool.false_ne_true] at h

section Extents

variable (hinl : hasFlag di.iDynFeatures inlineDataFl = false) (hfile : FileOk fs s.dev di)
  (hal : readAligned fs ptr count offset = true)
include hinl hfile hal

/-- A read of a file with extents whose size can be rounded up to blocks: it returns the
    content, unless the file is larger than the extent tree can map. -/
theorem fileRead_extents (hcount : count < 2 ^ 32) (hsize : di.iSize + fs.fsBlocksize ≤ 2 ^ 64) :
    (∃ buf, fileRead fs di ptr count offset s = some (.ok (min count (di.iSize - offset), buf), s) ∧
      buf.take (min count (di.iSize - offset)) =
        ((fileContent fs s.dev di).drop offset).take (min count (di.iSize - offset))) ∨
      fileRead fs di ptr count offset s = none ∧
        uint32Max * fs.bpc * fs.fsBlocksize < di.iSize := by
  have hbs := fs.fsBlocksize_pos
  obtain ⟨hw, h64, hlen⟩ := hfile.extents hinl
  simp only [readAligned, decide_eq_true_eq] at hal
  obtain ⟨hc, ho, -⟩ := id hal
  obtain ⟨w, rfl⟩ := Nat.dvd_of_mod_eq_zero hc
  obtain ⟨v, rfl⟩ := Nat.dvd_of_mod_eq_zero ho
  have hnb : addW 64 di.iSize (fs.fsBlocksize - 1) = di.iSize + fs.fsBlocksize - 1 := by
    rw [addW_eq (by omega)]
    omega
  have hcontent : fileContent fs s.dev di = (fileBlocks fs s.dev di.iList 0
      ((di.iSize + fs.fsBlocksize - 1) / fs.fsBlocksize)).take di.iSize := by
    simp only [fileContent, hinl, Bool.false_eq_true, if_false, fileBlocks, range_eq_range']
  simp only [fileRead, hinl, Bool.false_eq_true, if_false, readAligned, hal, decide_true,
    Bool.true_eq_false, Nat.mul_div_cancel_left _ hbs, hnb, hcontent, and_self]
  -- `n` is the number of blocks of the file
  have hn1 := Nat.div_mul_le_self (di.iSize + fs.fsBlocksize - 1) fs.fsBlocksize
  have hn2 := Nat.lt_div_mul_add (a := di.iSize + fs.fsBlocksize - 1) hbs
  generalize (di.iSize + fs.fsBlocksize - 1) / fs.fsBlocksize = n at hn1 hn2 ⊢
  rw [Nat.mul_comm fs.fsBlocksize] at hcount ⊢
  rw [Nat.mul_comm fs.fsBlocksize]
  by_cases hv : n ≤ v
  · left
    have hle := Nat.mul_le_mul_right fs.fsBlocksize hv
    have hz : di.iSize - v * fs.fsBlocksize = 0 := by omega
    rw [if_pos hv, hz]
    exact ⟨[], by simp⟩
  · rw [if_neg hv]
    have hvn : (v + 1) * fs.fsBlocksize ≤ n * fs.fsBlocksize := Nat.mul_le_mul_right _ (by omega)
    rw [Nat.add_mul] at hvn
    -- `m` blocks are read
    have hm : ∃ m, (if n < v + w then n - v else w) = m ∧ m ≤ w ∧ v + m ≤ n ∧
        (m = w ∨ v + m = n) := by
      split
      · exact ⟨_, rfl, by omega⟩
      · exact ⟨_, rfl, by omega⟩
    obtain ⟨m, hmeq, hmw, hvm, hmor⟩ := hm
    rw [hmeq]
    have hmw' := Nat.mul_le_mul_right fs.fsBlocksize hmw
    have hvm' := Nat.mul_le_mul_right fs.fsBlocksize hvm
    rw [Nat.add_mul] at hvm'
    have hmin : min (m * fs.fsBlocksize) (di.iSize - v * fs.fsBlocksize) =
        min (w * fs.fsBlocksize) (di.iSize - v * fs.fsBlocksize) := by
      rcases hmor with rfl | rfl
      · rfl
      · rw [Nat.add_mul] at hn1 hn2
        omega
    by_cases hm0 : m = 0
    · left
      subst hm0
      have hz : min (w * fs.fsBlocksize) (di.iSize - v * fs.fsBlocksize) = 0 := by
        rw [← hmin, Nat.zero_mul, Nat.zero_min]
      rw [hz]
      exact ⟨[], by simp [fileReadLoop]⟩
    · have hoff : v * fs.fsBlocksize ≤ di.iSize := by omega
      rcases fileReadLoop_spec hw h64 hoff m m v 0 (by omega) (le_refl m) (by omega)
        (by omega) with hrun | ⟨hrun, hbig⟩
      · left
        rw [Nat.zero_add, hmin] at hrun
        refine ⟨_, hrun, ?_⟩
        rw [← hmin]
        exact (content_slice hlen di.iList hvm (min_le_left _ _) (by omega)).symm
      · right
        refine ⟨hrun, ?_⟩
        have hbig' : (uint32Max * fs.bpc + 1) * fs.fsBlocksize ≤ n * fs.fsBlocksize :=
          Nat.mul_le_mul_right _ (by omega)
        rw [Nat.add_mul] at hbig'
        omega

theorem fileRead_wrapped (hsize : 2 ^ 64 < di.iSize + fs.fsBlocksize) :
    fileRead fs di ptr count offset s = some (.ok (0, []), s) := by
  have h64 := (hfile.extents hinl).2.1
  have hwrap : addW 64 di.iSize (fs.fsBlocksize - 1) / fs.fsBlocksize = 0 := by
    have hmod : addW 64 di.iSize (fs.fsBlocksize - 1) =
        di.iSize + (fs.fsBlocksize - 1) - 2 ^ 64 := by
      have hbs : fs.fsBlocksize ≤ 2 ^ 12 :=
        Nat.pow_le_pow_right (by decide) fs.blocksize_le
      rw [addW, Nat.mod_eq_sub_mod (by omega), Nat.mod_eq_of_lt (by omega)]
    exact Nat.div_eq_of_lt (by omega)
  simp [fileRead, hinl, hal, hwrap]

end Extents

theorem fileRead_inline (hinl : hasFlag di.iDynFeatures inlineDataFl = true)
    (hfile : FileOk fs s.dev di) (hoff : offset ≤ di.iSize ∨ di.idCount < offset) :
    fileRead fs di ptr count offset s = some (.ok (min count (di.iSize - offset),
      ((fileContent fs s.dev di).drop offset).take (min count (di.iSize - offset))), s) := by
  simp only [FileOk, hinl, if_true] at hfile
  have hcontent : fileContent fs s.dev di = di.idData.take di.iSize := by
    simp only [fileContent, hinl, if_true]
  rw [fileRead, if_pos hinl, inlineDataRead, hinl, if_neg (by decide), hcontent]
  by_cases hb : di.idCount < offset
  · have hz : di.iSize - offset = 0 := by omega
    rw [if_pos hb, hz, Nat.min_zero]
    rfl
  · have hle : offset ≤ di.iSize := by omega
    have hsub : subW 64 di.iSize offset = di.iSize - offset := subW_eq hle (by omega)
    simp only [if_neg hb, hsub, Nat.min_comm (di.iSize - offset), pure_run]
    rw [drop_take, take_take, min_eq_left (min_le_right _ _)]

/-- Behind the end of an inline file but inside its data area, `i_size - offset` wraps
    around and everything that was asked for is reported as read. -/
def InlineUnderflow (di : Dinode) (count offset : Nat) : Prop :=
  hasFlag di.iDynFeatures inlineDataFl = true ∧ di.iSize < offset ∧ offset ≤ di.idCount ∧ 0 < count

/-- A read inside a file with extents whose size is within one block of `2^64`. -/
def SizeWraps (fs : Filesys) (di : Dinode) (ptr count offset : Nat) : Prop :=
  hasFlag di.iDynFeatures inlineDataFl = false ∧ readAligned fs ptr count offset = true ∧
    2 ^ 64 < di.iSize + fs.fsBlocksize ∧ offset < di.iSize ∧ 0 < count

theorem fileRead_inline_underflow (ptr : Nat) (hfile : FileOk fs s.dev di) (hcount : count < 2 ^ 32)
    (h : InlineUnderflow di count offset) :
    ∃ buf, fileRead fs di ptr count offset s = some (.ok (count, buf), s) := by
  obtain ⟨hinl, h1, h2, -⟩ := h
  simp only [FileOk, hinl, if_true] at hfile
  have hsub : count ≤ subW 64 di.iSize offset := by
    rw [subW]
    omega
  refine ⟨(di.idData.drop offset).take count, ?_⟩
  rw [fileRead, if_pos hinl, inlineDataRead, hinl, if_neg (by decide), if_neg (by omega),
    min_eq_right hsub]
  rfl

/-- **`ocfs2_file_read`** returns the content of the file exactly when neither subtraction
    nor rounding wraps around. -/
theorem fileRead_correct_iff {s : St} {di : Dinode} {ptr count offset : Nat}
    (hfile : FileOk fs s.dev di) (hcount : count < 2 ^ 32) : ReadsContent fs di ptr count offset s ↔
      ¬ InlineUnderflow di count offset ∧ ¬ SizeWraps fs di ptr count offset := by
  constructor
  · intro h
    constructor
    · intro hu
      obtain ⟨buf, hrun⟩ := fileRead_inline_underflow ptr hfile hcount hu
      have := (h _ _ _ hrun).1
      obtain ⟨-, h1, -, h2⟩ := hu
      omega
    · rintro ⟨hinl, hal, hbig, hoff, hpos⟩
      have := (h _ _ _ (fileRead_wrapped hinl hfile hal hbig)).1
      omega
  · rintro ⟨hu, hs⟩ got buf t hrun
    cases hinl : hasFlag di.iDynFeatures inlineDataFl with
    | true =>
      have hoff : offset ≤ di.iSize ∨ di.idCount < offset ∨ count = 0 := by
        by_contra hc
        exact hu ⟨hinl, by omega⟩
      by_cases h0 : offset ≤ di.iSize ∨ di.idCount < offset
      · rw [fileRead_inline hinl hfile h0] at hrun
        cases hrun
        exact ⟨rfl, by rw [List.take_take, Nat.min_self]⟩
      · -- nothing was asked for
        have hc0 : count = 0 := by omega
        subst hc0
        rw [fileRead, if_pos hinl, inlineDataRead, hinl, if_neg (by decide), if_neg (by omega),
          Nat.min_zero] at hrun
        cases hrun
        exact ⟨(Nat.zero_min _).symm, rfl⟩
    | false =>
      cases hal : readAligned fs ptr count offset with
      | false =>
        rw [fileRead, hinl, hal] at hrun
        cases hrun
      | true =>
        by_cases hbig : 2 ^ 64 < di.iSize + fs.fsBlocksize
        · rw [fileRead_wrapped hinl hfile hal hbig] at hrun
          cases hrun
          have hz : min count (di.iSize - offset) = 0 := by
            by_contra hc
            exact hs ⟨hinl, hal, hbig, by omega⟩
          exact ⟨hz.symm, rfl⟩
        · rcases fileRead_extents hinl hfile hal hcount (by omega) with ⟨b, hb, hcont⟩ | ⟨hb, -⟩
          · rw [hb] at hrun
            cases hrun
            exact ⟨rfl, hcont⟩
          · rw [hb] at hrun
            cases hrun

/-- Three bytes of inline data in an area of eight. -/
def inlineInode : Dinode :=
  { smallInode 0 (listOf 0 19 []) with
    iDynFeatures := inlineDataFl
    iSize := 3
    idCount := 8
    idData := [1, 2, 3, 0, 0, 0, 0, 0] }

/-- Two bytes from offset 5 of a file of three bytes. -/
theorem fileRead_behind_end : FileOk smallFs (smallSt [] inlineInode []).dev inlineInode ∧
    ¬ ReadsContent smallFs inlineInode 0 2 5 (smallSt [] inlineInode []) := by
  have hfile : FileOk smallFs (smallSt [] inlineInode []).dev inlineInode := by
    simp [FileOk, inlineInode, hasFlag, inlineDataFl]
  refine ⟨hfile, fun h => ?_⟩
  have hu : InlineUnderflow inlineInode 2 5 := ⟨by decide, by decide, by decide, by decide⟩
  obtain ⟨buf, hrun⟩ := fileRead_inline_underflow 0 hfile (by decide) hu
  exact absurd (h _ _ _ hrun).1 (by decide)

/-- The tree of two leaves with a size that ends in its unwritten extent. -/
def leavesFile : Dinode := { twoLeafInode with iSize := 626588 }

def leavesSt : St :=
  let s := smallSt twoLeaves leavesFile []
  { s with dev := { s.dev with blocks := fun b => List.replicate 512 (UInt8.ofNat b) } }

/-- A read from the last cluster of the first leaf over the hole behind it to the end of the
    file. -/
theorem fileRead_correct_leaves :
    (∃ r t, fileRead smallFs leavesFile 0 409600 221184 leavesSt = some (.ok r, t)) ∧
      ReadsContent smallFs leavesFile 0 409600 221184 leavesSt := by
  have hfile : FileOk smallFs leavesSt.dev leavesFile :=
    ⟨⟨twoLeaves.map (Node.mk · []), rfl, by decide⟩, by decide, fun _ => List.length_replicate⟩
  exact ⟨Prog.returns_true (by decide +kernel), (fileRead_correct_iff hfile (by decide)).mpr
    ⟨fun h => absurd h.1 (by decide), fun h => absurd h.2.2.1 (by decide)⟩⟩

end Ocfs2Tools
