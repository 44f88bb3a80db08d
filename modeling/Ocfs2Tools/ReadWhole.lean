import Ocfs2Tools.BlockIterate
import Ocfs2Tools.FileRead

/-!
# Reading a whole file: `ocfs2_read_whole_file`

The file is gathered by a callback of the block iterator, which stores one block behind the
other. The iterator does not call it for holes, so what is behind a hole moves to the front.
-/

namespace Ocfs2Tools

open List ExtentRec

variable {fs : Filesys} {s t : St}
  {size lo hi : Nat} {recs : List ExtentRec} {ks : List Node} {buf : List UInt8} {len : Int}
  {vs : List Nat}

/-! ### The functions of `fileio.c` -/

def intMax : Nat := 2147483647

/-- The value of an `int` that a sum is stored to. -/
def toInt (n : Int) : Int := n.bmod (2 ^ 32)

/-- `struct read_whole_context`: `data` is what lies between `buf` and `ptr`. -/
structure ReadWholeContext where
  data : List UInt8
  offset : Int
  errcode : Option Errcode

/-- A block stored at `ptr`, and `ptr` and `offset` moved behind it. -/
def ReadWholeContext.store (ctx : ReadWholeContext) (fs : Filesys) (block : List UInt8) :
    ReadWholeContext :=
  ⟨ctx.data ++ block, toInt (ctx.offset + fs.fsBlocksize), none⟩

/-- What `read_whole_func` makes of its context; `io` says what reading a block gives. -/
def readWholeLook (fs : Filesys) (io : Nat → Except Errcode (List UInt8)) :
    BlockLook ReadWholeContext := fun c ctx =>
  if hasFlag c.extFlags extUnwritten then (false, ctx.store fs (zeroBlocks fs 1))
  else
    match io c.blkno with
    | .ok block => (false, ctx.store fs block)
    | .error e => (true, { ctx with errcode := some e })

/-- `read_whole_func`. -/
def readWholeFunc (fs : Filesys) (io : Nat → Except Errcode (List UInt8)) :
    BlockFunc ReadWholeContext := fun c ctx =>
  pure (stopFlags (readWholeLook fs io c ctx).1, (readWholeLook fs io c ctx).2)

theorem readWholeFunc_looks (fs : Filesys) (io : Nat → Except Errcode (List UInt8)) (s : St) :
    BlockLooks (readWholeFunc fs io) (readWholeLook fs io) s := fun _ _ => rfl

/-- `ocfs2_read_whole_file` on the inode of the device: the bytes stored in the buffer and
    `*len`. Memory is always there. -/
def readWholeFile (fs : Filesys) (io : Nat → Except Errcode (List UInt8)) :
    M (List UInt8 × Int) := do
  let s ← Prog.get
  let di := s.dev.inode
  if intMax < di.iSize then Prog.fail .invalidArgument
  else if hasFlag di.iDynFeatures inlineDataFl then do
    let (got, bytes) ← inlineDataRead di di.iSize 0
    pure (bytes, (got : Int))
  else do
    let (_, ctx) ← blockIterateInode fs false (readWholeFunc fs io) di ⟨[], 0, none⟩
    match ctx.errcode with
    | some e => Prog.fail e
    | none => pure (ctx.data, if ctx.offset < di.iSize then ctx.offset else (di.iSize : Int))

/-! ### What the callback gathers -/

def callData (fs : Filesys) (dev : Device) (c : BlockCall) : List UInt8 :=
  if hasFlag c.extFlags extUnwritten then zeroBlocks fs 1 else dev.blocks c.blkno

theorem toInt_add (a b : Int) : toInt (toInt a + b) = toInt (a + b) :=
  Int.bmod_add_bmod

/-- The calls, by induction: all their blocks are stored one behind the other, or one could
    not be read and the error is kept. -/
theorem readWhole_fold {io : Nat → Except Errcode (List UInt8)} {dev : Device}
    (hio : ∀ b block, io b = .ok block → block = dev.blocks b) : ∀ cs ctx {stop ctx'},
    foldStop (fun ctx c => readWholeLook fs io c ctx) ctx cs = (stop, ctx') →
    toInt ctx.offset = ctx.offset → ctx'.errcode = none →
    ctx'.data = ctx.data ++ cs.flatMap (callData fs dev) ∧
      ctx'.offset = toInt (ctx.offset + (cs.length * fs.fsBlocksize : Nat))
  | [], ctx, _, _, h, h0, _ => by
    cases h
    simp [h0]
  | c :: cs, ctx, stop, ctx', h, h0, h' => by
    have hgo : ∀ block, block = callData fs dev c →
        readWholeLook fs io c ctx = (false, ctx.store fs block) →
        ctx'.data = ctx.data ++ (c :: cs).flatMap (callData fs dev) ∧
          ctx'.offset = toInt (ctx.offset + ((c :: cs).length * fs.fsBlocksize : Nat)) := by
      rintro block rfl hl
      rw [foldStop_cons_go hl] at h
      obtain ⟨hd, ho⟩ := readWhole_fold hio cs _ h Int.bmod_bmod h'
      refine ⟨?_, ?_⟩
      · rw [hd, ReadWholeContext.store, flatMap_cons, append_assoc]
      · rw [ho, ReadWholeContext.store, toInt_add, length_cons, Nat.add_mul, Nat.one_mul,
          Int.natCast_add, Int.add_assoc, Int.add_comm fs.fsBlocksize]
    by_cases hu : hasFlag c.extFlags extUnwritten
    · exact hgo _ (by rw [callData, if_pos hu]) (if_pos hu)
    · cases hb : io c.blkno with
      | ok block =>
        refine hgo block (by rw [callData, if_neg hu, hio _ _ hb]) ?_
        rw [readWholeLook, if_neg hu, hb]
      | error e =>
        have hl : readWholeLook fs io c ctx = (true, { ctx with errcode := some e }) := by
          rw [readWholeLook, if_neg hu, hb]
        rw [foldStop_cons_stop hl] at h
        cases h
        cases h'

theorem lt_blocks_iff {v : Nat} :
    v < (size + fs.fsBlocksize - 1) / fs.fsBlocksize ↔ v * fs.fsBlocksize < size := by
  have hpos := fs.fsBlocksize_pos
  rw [Nat.lt_iff_add_one_le, Nat.le_div_iff_mul_le hpos, Nat.add_mul]
  omega

variable (fs) in
theorem fileCalls_bcounts (size : Nat) (hs : Spaced eCpos eLeafClusters lo recs hi) :
    (fileCalls fs false size recs).map BlockCall.bcount =
      (List.range ((size + fs.fsBlocksize - 1) / fs.fsBlocksize)).filter
        fun v => (recsMap fs recs (v / fs.bpc)).isSome := by
  have hsorted : ((fileCalls fs false size recs).map BlockCall.bcount).Pairwise (· < ·) :=
    pairwise_map.mpr (fileCalls_sorted hs).1
  have hrange := (pairwise_lt_range (n := (size + fs.fsBlocksize - 1) / fs.fsBlocksize)).filter
    fun v => (recsMap fs recs (v / fs.bpc)).isSome
  refine hsorted.eq_of_mem_iff hrange fun v => ?_
  rw [mem_filter, mem_range, lt_blocks_iff, mem_map]
  constructor
  · rintro ⟨c, hc, rfl⟩
    obtain ⟨hlt, blkno, hmap, -⟩ := (mem_fileCalls hs).mp hc
    exact ⟨hlt, by rw [hmap]; rfl⟩
  · rintro ⟨hlt, hmap⟩
    obtain ⟨⟨blkno, flags⟩, hmap⟩ := Option.isSome_iff_exists.mp hmap
    exact ⟨⟨blkno + v % fs.bpc, v, flags⟩, (mem_fileCalls hs).mpr ⟨hlt, blkno, hmap, rfl⟩, rfl⟩

theorem callData_eq {dev : Device} {el : ExtentList} {c : BlockCall}
    (hs : Spaced eCpos eLeafClusters lo (diskRecs dev.ebs el) hi)
    (hc : c ∈ fileCalls fs false size (diskRecs dev.ebs el)) :
    callData fs dev c = fileBlock fs dev el c.bcount := by
  obtain ⟨-, blkno, hmap, hblk⟩ := (mem_fileCalls hs).mp hc
  rw [callData, fileBlock, treeMap, hmap, hblk]

/-! ### The whole function -/

/-- `ocfs2_read_whole_file` has returned the file: its size, and its bytes. -/
def ReadsWhole (fs : Filesys) (s : St) (buf : List UInt8) (len : Int) : Prop :=
  len = s.dev.inode.iSize ∧
    ∀ i < s.dev.inode.iSize, buf[i]? = (fileContent fs s.dev s.dev.inode)[i]?

/-- Every block below the end of the file is mapped. -/
def NoHoles (fs : Filesys) (dev : Device) : Prop :=
  ∀ v < (dev.inode.iSize + fs.fsBlocksize - 1) / fs.fsBlocksize,
    (treeMap fs dev.ebs dev.inode.iList (v / fs.bpc)).isSome

/-- What a successful call has gathered: the mapped blocks `vs` of the file. -/
structure Gathered (fs : Filesys) (s : St) (vs : List Nat) (buf : List UInt8) (len : Int) :
    Prop where
  blocks : vs = (List.range ((s.dev.inode.iSize + fs.fsBlocksize - 1) / fs.fsBlocksize)).filter
    fun v => (treeMap fs s.dev.ebs s.dev.inode.iList (v / fs.bpc)).isSome
  data : buf = vs.flatMap (fileBlock fs s.dev s.dev.inode.iList)
  len : len = min (toInt (vs.length * fs.fsBlocksize : Nat)) s.dev.inode.iSize

theorem Iterable.diskRecs_eq {ebs : Nat → Option ExtentBlock} {di : Dinode}
    (h : Iterable fs ebs di ks) :
    diskRecs ebs di.iList = treeRecs di.iList.lTreeDepth di.iList ks := by
  rw [diskRecs, h.read]

theorem readWholeFile_gathered {io : Nat → Except Errcode (List UInt8)}
    (hio : ∀ b block, io b = .ok block → block = s.dev.blocks b) (hwalk : Walkable s.dev.inode)
    (h : Iterable fs s.dev.ebs s.dev.inode ks)
    (hrun : readWholeFile fs io s = some (.ok (buf, len), t)) : ∃ vs, Gathered fs s vs buf len := by
  obtain ⟨s0, s1, hget, hrun⟩ := Prog.bind_eq_ok hrun
  cases hget
  dsimp only at hrun
  split at hrun
  · cases hrun
  · rw [if_neg (by rw [hwalk.extents]; decide)] at hrun
    obtain ⟨⟨di', ctx⟩, u, hiter, hrun⟩ := Prog.bind_eq_ok hrun
    obtain ⟨stop, ctx', hfold, -, hpriv⟩ := blockIterateInode_looks false
      (readWholeFunc_looks fs io s) hwalk h
      ⟨[], 0, none⟩
    obtain rfl := hpriv _ _ _ hiter
    cases herr : ctx.errcode with
    | some e =>
      simp only [herr] at hrun
      cases hrun
    | none =>
      simp only [herr] at hrun
      obtain ⟨hdata, hoff⟩ := readWhole_fold hio _ _ hfold rfl herr
      have hs := h.order.recs_spaced
      rw [← h.diskRecs_eq] at hs hdata hoff
      have hb := fileCalls_bcounts fs s.dev.inode.iSize hs
      refine ⟨_, hb, ?_, ?_⟩
      all_goals cases hrun
      · rw [hdata, flatMap_map]
        exact flatMap_congr fun c hc => callData_eq hs hc
      · rw [hoff, length_map, Int.zero_add]
        omega

theorem toInt_of_le {n : Nat} (h : n ≤ intMax) : toInt n = n := by
  unfold intMax at h
  rw [toInt, Int.bmod_def]
  omega

theorem toInt_succ_intMax : toInt ((intMax + 1 : Nat) : Int) = -2147483648 := by decide

theorem Gathered.length_le (h : Gathered fs s vs buf len) :
    vs.length ≤ (s.dev.inode.iSize + fs.fsBlocksize - 1) / fs.fsBlocksize := by
  rw [h.blocks]
  exact (length_filter_le _ _).trans (le_of_eq length_range)

theorem Gathered.noHoles_iff (h : Gathered fs s vs buf len) : NoHoles fs s.dev ↔
      vs.length = (s.dev.inode.iSize + fs.fsBlocksize - 1) / fs.fsBlocksize := by
  have hiff := length_filter_eq_length_iff
    (l := List.range ((s.dev.inode.iSize + fs.fsBlocksize - 1) / fs.fsBlocksize))
    (p := fun v => (treeMap fs s.dev.ebs s.dev.inode.iList (v / fs.bpc)).isSome)
  rw [← h.blocks, length_range] at hiff
  rw [hiff, NoHoles]
  simp only [mem_range]

variable (fs) in
theorem blocks_le_intMax (h : size ≤ intMax) :
    (size + fs.fsBlocksize - 1) / fs.fsBlocksize * fs.fsBlocksize ≤ intMax + 1 := by
  have hdvd : fs.fsBlocksize ∣ intMax + 1 :=
    Nat.pow_dvd_pow 2 (show fs.sBlocksizeBits ≤ 31 from le_trans fs.blocksize_le (by decide))
  have hpos := fs.fsBlocksize_pos
  obtain ⟨m, hm⟩ := hdvd
  rw [hm, Nat.mul_comm fs.fsBlocksize]
  refine Nat.mul_le_mul_right _ (Nat.le_of_lt_succ ((Nat.div_lt_iff_lt_mul hpos).mpr ?_))
  rw [Nat.succ_mul, Nat.mul_comm, ← hm]
  omega

/-- What was gathered is the file exactly if the file has no holes and `offset` has not turned
    negative. -/
theorem Gathered.readsWhole_iff (hg : Gathered fs s vs buf len) (hwalk : Walkable s.dev.inode)
    (hsize : s.dev.inode.iSize ≤ intMax) : ReadsWhole fs s buf len ↔ NoHoles fs s.dev ∧
      (s.dev.inode.iSize + fs.fsBlocksize - 1) / fs.fsBlocksize * fs.fsBlocksize ≤ intMax := by
  have hmax := blocks_le_intMax fs hsize
  have hlen := hg.length_le
  have hlen' := Nat.mul_le_mul_right fs.fsBlocksize hlen
  rw [hg.noHoles_iff]
  constructor
  · rintro ⟨hl, -⟩
    have hge := hg.len
    -- `offset` has not turned negative, so it is what was gathered
    have hfit : vs.length * fs.fsBlocksize ≤ intMax := by
      by_contra hbig
      have heq : vs.length * fs.fsBlocksize = intMax + 1 := by omega
      rw [heq, toInt_succ_intMax] at hge
      omega
    rw [toInt_of_le hfit] at hge
    have hall : vs.length = (s.dev.inode.iSize + fs.fsBlocksize - 1) / fs.fsBlocksize := by
      refine le_antisymm hlen (Nat.le_of_not_lt fun hlt => ?_)
      have := lt_blocks_iff.mp hlt
      omega
    exact ⟨hall, hall ▸ hfit⟩
  · rintro ⟨hall, hfit⟩
    have hcover : s.dev.inode.iSize ≤ vs.length * fs.fsBlocksize := by
      by_contra hlt
      have := lt_blocks_iff.mpr (Nat.lt_of_not_le hlt)
      omega
    refine ⟨?_, fun i hi => ?_⟩
    · rw [hg.len, hall, toInt_of_le hfit]
      omega
    · have hvs := filter_eq_self.mpr
        (length_filter_eq_length_iff.mp (hg.blocks ▸ (hall.trans length_range.symm)))
      rw [hg.data, hg.blocks, hvs]
      simp only [fileContent, hwalk.extents, Bool.false_eq_true, if_false]
      rw [getElem?_take_of_lt hi]

/-- A successful `ocfs2_read_whole_file` has returned the file exactly if the file has no
    holes and its blocks fit an `int`. Behind a hole everything is too far to the front and
    `*len` is short; at `2^31` bytes of blocks `offset` turns negative, and so does `*len`. -/
theorem readWholeFile_iff {io : Nat → Except Errcode (List UInt8)} {ks : List Node}
    {buf : List UInt8} {len : Int} (hio : ∀ b block, io b = .ok block → block = s.dev.blocks b)
    (hwalk : Walkable s.dev.inode) (h : Iterable fs s.dev.ebs s.dev.inode ks)
    (hsize : s.dev.inode.iSize ≤ intMax) (hrun : readWholeFile fs io s = some (.ok (buf, len), t)) :
    ReadsWhole fs s buf len ↔ NoHoles fs s.dev ∧
      (s.dev.inode.iSize + fs.fsBlocksize - 1) / fs.fsBlocksize * fs.fsBlocksize ≤ intMax := by
  obtain ⟨vs, hg⟩ := readWholeFile_gathered hio hwalk h hrun
  exact hg.readsWhole_iff hwalk hsize

/-- A file of `size` bytes with the leaf records `recs`, on a device whose blocks are filled
    with their own numbers. -/
def plainFile (size : Nat) (recs : List ExtentRec) : St :=
  let di := { smallInode 0 (listOf 0 19 recs) with iSize := size }
  { smallSt [] di [] with
    dev :=
      { ebs := ebsOf []
        used := fun _ _ => false
        inode := di
        blocks := fun b => List.replicate 512 b.toUInt8 } }

def plainIo (b : Nat) : Except Errcode (List UInt8) := .ok (List.replicate 512 b.toUInt8)

theorem plainIo_ok (b : Nat) (block : List UInt8) (h : plainIo b = .ok block) :
    block = (plainFile size recs).dev.blocks b :=
  (Except.ok.inj h).symm

theorem readWholeFile_plain :
    ∃ buf len t, readWholeFile smallFs plainIo (plainFile 4096 [⟨0, 1, 0, 0, 80⟩]) =
        some (.ok (buf, len), t) ∧
      ReadsWhole smallFs (plainFile 4096 [⟨0, 1, 0, 0, 80⟩]) buf len := by
  obtain ⟨⟨buf, len⟩, t, hrun⟩ := Prog.returns_true (m := readWholeFile smallFs plainIo)
    (s := plainFile 4096 [⟨0, 1, 0, 0, 80⟩]) (by decide +kernel)
  have hno : ∀ v < 8, (treeMap smallFs (ebsOf []) (listOf 0 19 [⟨0, 1, 0, 0, 80⟩])
      (v / smallFs.bpc)).isSome := by decide
  have hiter : Iterable smallFs (ebsOf []) (plainFile 4096 [⟨0, 1, 0, 0, 80⟩]).dev.inode [] :=
    ⟨rfl, by decide, by decide, by decide, by decide, rfl⟩
  exact ⟨buf, len, t, hrun, (readWholeFile_iff plainIo_ok ⟨by decide, by decide, by decide⟩ hiter
    (by decide) hrun).mpr ⟨hno, by decide⟩⟩

def holeFile : St := plainFile 12288 [⟨0, 1, 0, 0, 80⟩, ⟨2, 1, 0, 0, 160⟩]

theorem readWholeFile_hole :
    (Walkable holeFile.dev.inode ∧ WfTree smallFs holeFile.dev.ebs holeFile.dev.inode) ∧
    ∃ buf len t, readWholeFile smallFs plainIo holeFile = some (.ok (buf, len), t) ∧
      ¬ ReadsWhole smallFs holeFile buf len := by
  have hwalk : Walkable holeFile.dev.inode := ⟨by decide, by decide, by decide⟩
  have hwf : WfRoot smallFs holeFile.dev.inode [] := by decide
  obtain ⟨⟨buf, len⟩, t, hrun⟩ := Prog.returns_true (m := readWholeFile smallFs plainIo)
    (s := holeFile) (by decide +kernel)
  refine ⟨⟨hwalk, [], rfl, hwf⟩, buf, len, t, hrun, fun hreads => ?_⟩
  obtain ⟨vs, hg⟩ := readWholeFile_gathered plainIo_ok hwalk (hwf.iterable rfl) hrun
  have hno := ((hg.readsWhole_iff hwalk (by decide)).mp hreads).1 8 (by decide)
  exact absurd hno (by decide)

end Ocfs2Tools
