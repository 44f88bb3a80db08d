import Ocfs2Tools.Truncate.Walk

/-!
# The parts of `ocfs2_truncate`

The rounding of the new size, the walk of the inode's tree with the end of its leaf
chain, and the zeroing of the tail, each with what it leaves.
-/

namespace Ocfs2Tools

open List Prog

variable {fs : Filesys} {N ino : Nat} {s t u : St}
  {recs : List ExtentRec} {lo hi n d : Nat} {di : Dinode} {ks : List Node}
  {ebs : Nat → Option ExtentBlock} {el : ExtentList}

/-! ### Rounding the size -/

def clusterCeil (fs : Filesys) (size : Nat) : Nat :=
  (size + fs.fsClustersize - 1) / fs.fsClustersize

theorem clusterCeil_blocks (size : Nat) :
    clusterCeil fs size = ((size + (fs.fsBlocksize - 1)) / fs.fsBlocksize + (fs.bpc - 1)) /
      fs.bpc := by
  have h1 := fs.fsBlocksize_ge
  have h2 := fs.bpc_pos
  have hmul : fs.fsBlocksize * fs.bpc = fs.fsBlocksize + fs.fsBlocksize * (fs.bpc - 1) := by
    obtain ⟨m, hm⟩ : ∃ m, fs.bpc = m + 1 := ⟨fs.bpc - 1, by omega⟩
    rw [hm, Nat.mul_succ, Nat.add_sub_cancel, Nat.add_comm]
  have hsum : size + fs.fsBlocksize * fs.bpc - 1 =
      size + (fs.fsBlocksize - 1) + fs.fsBlocksize * (fs.bpc - 1) := by omega
  rw [clusterCeil, fs.fsClustersize_eq, ← Nat.div_div_eq_div_mul, hsum,
    Nat.add_mul_div_left _ _ (by omega)]

theorem newSizeInClusters_eq {size : Nat} (h : size < 18446744073709551616) :
    newSizeInClusters fs size = min (clusterCeil fs size) uint32Max := by
  have hb1 := fs.fsBlocksize_ge
  have hb2 := fs.fsBlocksize_le
  have hc1 := fs.bpc_pos
  have hc2 := fs.bpc_le
  by_cases hwrap : size + (fs.fsBlocksize - 1) < 18446744073709551616
  · have hadd : addW 64 size (fs.fsBlocksize - 1) = size + (fs.fsBlocksize - 1) :=
      addW_eq (by omega)
    have hq : (size + (fs.fsBlocksize - 1)) / fs.fsBlocksize ≤ 36028797018963968 :=
      Nat.div_le_of_le_mul (by
        omega)
    have hadd2 : addW 64 ((size + (fs.fsBlocksize - 1)) / fs.fsBlocksize) (fs.bpc - 1) =
        (size + (fs.fsBlocksize - 1)) / fs.fsBlocksize + (fs.bpc - 1) := addW_eq (by omega)
    simp only [newSizeInClusters, blocksInBytes, hadd, clustersInBlocks]
    rw [if_neg (by omega : ¬ size + (fs.fsBlocksize - 1) < size), hadd2,
      if_neg (by omega : ¬ _ + (fs.bpc - 1) < _), ← clusterCeil_blocks]
    split <;> omega
  · have hadd : addW 64 size (fs.fsBlocksize - 1) =
        size + (fs.fsBlocksize - 1) - 18446744073709551616 := by
      show (size + (fs.fsBlocksize - 1)) % 18446744073709551616 = _
      rw [Nat.mod_eq_sub_mod (by omega), Nat.mod_eq_of_lt (by omega)]
    have hblocks : blocksInBytes fs size = 18446744073709551615 := by
      rw [blocksInBytes, if_pos (by omega)]
    have hbig : uint32Max < 18446744073709551615 / fs.bpc := by
      rw [Nat.lt_div_iff_mul_lt hc1]
      unfold uint32Max at *
      omega
    have hceil : uint32Max ≤ clusterCeil fs size := by
      have hcs := fs.fsClustersize_le
      have hpos : 0 < fs.fsClustersize := Nat.two_pow_pos _
      rw [clusterCeil, Nat.le_div_iff_mul_le hpos]
      unfold uint32Max at *
      omega
    have hsum : (if addW 64 18446744073709551615 (fs.bpc - 1) < 18446744073709551615 then
        18446744073709551615 else addW 64 18446744073709551615 (fs.bpc - 1)) =
        18446744073709551615 := by
      split
      · rfl
      · have := addW_lt 64 18446744073709551615 (fs.bpc - 1)
        omega
    rw [newSizeInClusters, hblocks, clustersInBlocks]
    simp only [hsum]
    rw [if_pos hbig]
    omega

/-! ### Sums of clusters -/

def clusterSum (recs : List ExtentRec) : Nat := (recs.map ExtentRec.eLeafClusters).sum

theorem clusterSum_cutRecs (N : Nat) (recs : List ExtentRec) :
    clusterSum (cutRecs N recs) + freedCount N recs = clusterSum recs := by
  induction recs with
  | nil => rfl
  | cons r recs ih =>
    have hone : clusterSum (cutRecs N [r]) = (cutRec N r).eLeafClusters := by
      rw [cutRecs, map_singleton]
      by_cases he : isEmptyExtent (cutRec N r) = true
      · have hz : (cutRec N r).eLeafClusters = 0 := by simpa [isEmptyExtent] using he
        rw [filter_cons_of_neg (by simp [he]), hz]
        rfl
      · rw [filter_cons_of_pos (by simp [he])]
        simp [clusterSum]
    have hrec : (cutRec N r).eLeafClusters + freedOf N r = r.eLeafClusters := by
      unfold cutRec freedOf
      split
      · omega
      · split
        · show 0 + (r.eLeafClusters - (N - r.eCpos)) = _
          omega
        · show N - r.eCpos + (r.eLeafClusters - (N - r.eCpos)) = _
          omega
    have hcons : clusterSum (cutRecs N (r :: recs)) =
        clusterSum (cutRecs N [r]) + clusterSum (cutRecs N recs) := by
      rw [show r :: recs = [r] ++ recs from rfl, cutRecs_append]
      simp [clusterSum]
    have hsum : clusterSum (r :: recs) = r.eLeafClusters + clusterSum recs := rfl
    rw [freedCount_cons]
    omega

theorem clusterSum_pos (hs : Spaced ExtentRec.eCpos ExtentRec.eLeafClusters lo recs hi)
    (hne : recs ≠ []) : 0 < clusterSum recs := by
  obtain ⟨r, rs, rfl⟩ := exists_cons_of_ne_nil hne
  have := hs.2.1
  have hsum : clusterSum (r :: rs) = r.eLeafClusters + clusterSum rs := rfl
  omega

/-! ### The walk of the inode's tree -/

/-- The inode can be cut: what `truncateTo` asks of it and of the device. -/
structure Cuttable (fs : Filesys) (s : St) (di : Dinode) (ks : List Node) : Prop where
  root : WfRoot fs di ks
  read : readKids s.dev.ebs di.iList.lTreeDepth di.iList = some ks
  ready : Ready fs s (treeBlocks di.iList.lTreeDepth ks)
  clusters : di.iClusters = clusterSum (treeRecs di.iList.lTreeDepth di.iList ks)
  walk : Walkable di
  symlink : ¬ (isLnk di ∧ di.iClusters = 0)
  range : outOfRange fs di.iBlkno = false

abbrev rootRecs (di : Dinode) (ks : List Node) : List ExtentRec :=
  treeRecs di.iList.lTreeDepth di.iList ks

abbrev rootCut (fs : Filesys) (N : Nat) (di : Dinode) (ks : List Node) : Cut :=
  cut fs N di.iList.lTreeDepth di.iList ks

/-- Blocks are left below an interior root. -/
abbrev KidsLeft (fs : Filesys) (N : Nat) (di : Dinode) (ks : List Node) : Prop :=
  di.iList.lTreeDepth ≠ 0 → (rootCut fs N di ks).kids ≠ []

/-- Below an interior root a record starts before the new end. -/
abbrev SomeKept (N : Nat) (di : Dinode) (ks : List Node) : Prop :=
  di.iList.lTreeDepth ≠ 0 → ∃ r ∈ rootRecs di ks, r.eCpos < N

namespace Cuttable

variable (h : Cuttable fs s di ks)

include h

theorem left_add_freed (N : Nat) :
    clusterSum (cutRecs N (rootRecs di ks)) + freedCount N (rootRecs di ks) = di.iClusters :=
  (clusterSum_cutRecs N _).trans h.clusters.symm

theorem iClusters_lt : di.iClusters < 4294967296 := by
  have hle : 0 + clusterSum (rootRecs di ks) ≤ _ := h.root.recs_spaced.sum_le
  rw [← h.clusters, uint32Max] at hle
  omega

theorem iBlkno_ne : di.iBlkno ≠ 0 := by
  intro h0
  have hr := h.range
  rw [h0] at hr
  cases hr

theorem root_walk (N : Nat) :
    ∃ t ctxt, extentIterateEl fs ⟨true, false⟩ (truncateIterate fs di.iBlkno N)
        di.iList.lTreeDepth di.iList ⟨none, 0, 0, di.iClusters⟩ s =
        some (.ok (⟨cutChanged N di.iList.lTreeDepth di.iList, false, false⟩,
          (rootCut fs N di ks).el, ctxt), t) ∧
      Walked fs N di.iList.lTreeDepth uint32Max di.iList ks s ⟨none, 0, 0,
          di.iClusters⟩ ctxt t := by
  have hfree := Nat.le.intro ((Nat.add_comm _ _).trans (h.left_add_freed N))
  have hread := h.read
  have hready := h.ready
  by_cases hd : di.iList.lTreeDepth = 0
  · unfold rootRecs rootCut at *
    rw [hd] at hread hfree hready ⊢
    refine ⟨_, _, extentIterateEl_leaf h.iBlkno_ne (h.root.leaf hd) (le_refl _) hfree
      h.iClusters_lt, ?_, trivial, rfl, rfl, Nat.zero_le _, fun _ => rfl⟩
    exact touched_release hready.faults
  · exact extentIterateEl_cut h.iBlkno_ne _ _ (h.root.node hd) (le_refl _) hread hready hfree
      h.iClusters_lt (le_refl _)

end Cuttable

theorem cut_leaf_le : ∀ {d right lo hi el ks}, WfList fs (d + 1) right lo hi el ks →
    ∀ eb ∈ treeLeaves (d + 1) (cut fs N (d + 1) el ks).kids, eb.hList.lNextFreeRec ≤ eb.hList.lCount
  | d, right, lo, hi, el, ks, h, eb, he => by
    have hold : ∀ k ∈ ks, ∀ eb ∈ nodeLeaves d k, eb.hList.lNextFreeRec ≤ eb.hList.lCount := by
      intro k hk eb heb
      obtain ⟨_, _, _, _, hL, -⟩ := h.leaf_ok eb (by
        rw [treeLeaves_succ]
        exact mem_flatMap.mpr ⟨k, hk, heb⟩)
      exact hL.le
    rw [treeLeaves_succ] at he
    obtain ⟨j, hj, he⟩ := mem_flatMap.mp he
    rcases nodeCut_cases h with ⟨pre, rest, kpre, krest, c⟩ | ⟨_, _, _, _, _, k, c⟩
    · rw [c.left] at hj
      exact hold j (by rw [c.kids]; exact mem_append_left _ hj) eb he
    · rw [c.left] at hj
      rcases mem_append.mp hj with hj | hj
      · exact hold j (by rw [c.kids]; exact mem_append_left _ hj) eb he
      · rw [mem_singleton] at hj
        have hk := (h.kid c.live c.kids c.len).2.2
        rw [hj] at he
        cases d with
        | zero =>
          rw [nodeLeaves, mem_singleton] at he
          rw [he]
          exact (cut_shape hk).2.2
        | succ d => exact cut_leaf_le hk eb he

/-- What the device holds after the walk: the blocks that are left, the last leaf among
    them without a successor. -/
inductive Ended (ebs : Nat → Option ExtentBlock) : Nat → List Node → Prop
  | root (kids : List Node) : Ended ebs 0 kids
  | tree {d : Nat} {kids : List Node} {left : List ExtentBlock} {last : ExtentBlock}
      (ebs' : Nat → Option ExtentBlock) (stored : Stored ebs' (d + 1) kids)
      (leaves : treeLeaves (d + 1) kids = left ++ [last])
      (ends : ∀ b, ebs b = if b = last.hBlkno then some { last with hNextLeafBlk := 0 }
        else ebs' b) : Ended ebs (d + 1) kids

theorem stored_leaf : ∀ {d ks},
    Stored ebs d ks → ∀ eb ∈ treeLeaves d ks, ebs eb.hBlkno = some eb ∧ eb.hBlkno ∈ treeBlocks d ks
  | 0, _, _, eb, he => by cases he
  | d + 1, ks, h, eb, he => by
    rw [treeLeaves_succ] at he
    obtain ⟨k, hk, he⟩ := mem_flatMap.mp he
    obtain ⟨h1, h2⟩ := h k hk
    cases d with
    | zero =>
      rw [nodeLeaves, mem_singleton] at he
      rw [he]
      exact ⟨h1, mem_treeBlocks_succ.mpr ⟨k, hk, .inl rfl⟩⟩
    | succ d =>
      obtain ⟨h3, h4⟩ := stored_leaf h2 eb he
      exact ⟨h3, mem_treeBlocks_succ.mpr ⟨k, hk, .inr h4⟩⟩

theorem Ended.holds (h : Ended ebs d ks) : Holds ebs d ks := by
  cases h with
  | root => trivial
  | @tree d ks left last ebs' stored leaves ends =>
    have hlast : ebs' last.hBlkno = some last := (stored_leaf stored last (by rw [leaves]; simp)).1
    have hall : ∀ {d ks}, Stored ebs' d ks → Holds ebs d ks := by
      intro d
      induction d with
      | zero => exact fun _ => trivial
      | succ d ih =>
        intro ks hs k hk
        obtain ⟨h1, h2⟩ := hs k hk
        refine ⟨?_, ih h2⟩
        rw [ends]
        split
        · rename_i hb
          rw [hb, hlast] at h1
          rw [← Option.some.inj h1]
          rfl
        · rw [h1]
          rfl
    exact hall stored

def cutInode (fs : Filesys) (N : Nat) (di : Dinode) (ks : List Node) : Dinode :=
  { di with
    iList := (cut fs N di.iList.lTreeDepth di.iList ks).el
    iLastEbBlk := lastBlk 0
      (treeLeaves di.iList.lTreeDepth (cut fs N di.iList.lTreeDepth di.iList ks).kids) }

theorem writeInode_run (h : s.faults = []) (hr : outOfRange fs di.iBlkno = false) :
    writeInode fs di s = some (.ok (), s.commit { s.dev with inode := di }) := by
  rw [writeInode, hr, if_neg (by decide), writeBlock_noFault h]

theorem cutInode_depth (hw : WfRoot fs di ks) :
    (cutInode fs N di ks).iList.lTreeDepth = di.iList.lTreeDepth := by
  show (cut fs N di.iList.lTreeDepth di.iList ks).el.lTreeDepth = _
  by_cases hd : di.iList.lTreeDepth = 0
  · rw [hd]
    exact (finishEl_lTreeDepth ..).trans hd
  · exact (cut_shape (hw.node hd)).1

theorem endLeafChain_run {kids : List Node} {leaves : List ExtentBlock} {last : ExtentBlock}
    (hd : di.iList.lTreeDepth ≠ 0) (hf : s.faults = []) (hst : Stored s.dev.ebs (d + 1) kids)
    (hl : treeLeaves (d + 1) kids = leaves ++ [last]) (hno : di.iLastEbBlk = last.hBlkno)
    (hr : outOfRange fs last.hBlkno = false) (hle : last.hList.lNextFreeRec ≤ last.hList.lCount) :
    ∃ t, endLeafChain fs di s = some (.ok (), t) ∧ t.faults = [] ∧ t.released = s.released ∧
      Ended t.dev.ebs (d + 1) kids := by
  have heb := (stored_leaf hst last (by rw [hl]; simp)).1
  rw [endLeafChain, if_neg hd, hno, bind_ok (readExtentBlock_ok hr heb hle)]
  by_cases hn : last.hNextLeafBlk = 0
  · refine ⟨s, by simp [hn], hf, rfl, .tree s.dev.ebs hst hl fun b => ?_⟩
    split
    · rename_i hb
      rw [hb, heb, ← hn]
    · rfl
  · refine ⟨s.commit (s.dev.setEb last.hBlkno { last with hNextLeafBlk := 0 }), ?_, hf, rfl,
      .tree s.dev.ebs hst hl fun b => rfl⟩
    rw [if_pos hn]
    exact writeExtentBlock_run hf hr

theorem extentIterateInode_walked {changed : Bool} {func : ExtentFunc Nat}
    {ctxt : ExtentContext Nat} (hwalk : Walkable di) (hrange : outOfRange fs di.iBlkno = false)
    (hrun : extentIterateEl fs ⟨true, false⟩ func di.iList.lTreeDepth di.iList ⟨none, 0, 0, n⟩ s =
      some (.ok (⟨changed, false, false⟩, el, ctxt), t)) (hf : t.faults = []) :
    ∃ u, u.faults = [] ∧ u.dev.ebs = t.dev.ebs ∧ u.released = t.released ∧
      extentIterateInode fs ⟨true, false⟩ func di n s = (do
          endLeafChain fs { di with iList := el, iLastEbBlk := ctxt.lastEbBlkno }
          pure ({ di with iList := el, iLastEbBlk := ctxt.lastEbBlkno }, ctxt.privData) : M _)
          u := by
  rw [extentIterateInode, if_neg (by rw [hwalk.valid]; decide),
    if_neg (by rw [hwalk.plain]; decide), if_neg (by rw [hwalk.extents]; decide),
    bind_ok hrun]
  simp only [Bool.false_eq_true, if_false]
  split
  · refine ⟨t.commit { t.dev with
      inode := { di with iList := el, iLastEbBlk := ctxt.lastEbBlkno } }, hf, rfl, rfl, ?_⟩
    have hrange' : outOfRange fs ({ di with
        iList := el
        iLastEbBlk := ctxt.lastEbBlkno }).iBlkno = false := hrange
    exact bind_ok (writeInode_run hf hrange') _
  · exact ⟨t, hf, rfl, rfl, rfl⟩

namespace Cuttable

variable (h : Cuttable fs s di ks)

include h

/-- **`ocfs2_extent_iterate_inode` with `truncate_iterate`.** If blocks are left below an
    interior root, or the root is a leaf, the walk succeeds. -/
theorem extentIterateInode_run (hleft : KidsLeft fs N di ks) :
    ∃ t, extentIterateInode fs ⟨true, false⟩ (truncateIterate fs di.iBlkno N) di di.iClusters s =
        some (.ok (cutInode fs N di ks, clusterSum (cutRecs N (rootRecs di ks))), t) ∧
      t.faults = [] ∧ t.released = (rootCut fs N di ks).log.reverse ++ s.released ∧
      Ended t.dev.ebs di.iList.lTreeDepth (rootCut fs N di ks).kids := by
  obtain ⟨t, ctxt, hrun, hwd⟩ := h.root_walk N
  obtain ⟨u, huf, hue, hur, hgo⟩ :=
    extentIterateInode_walked h.walk h.range hrun hwd.touched.faults
  have hdi : ({ di with
      iList := (rootCut fs N di ks).el
      iLastEbBlk := ctxt.lastEbBlkno }) = cutInode fs N di ks := by
    rw [cutInode, hwd.last]
  rw [hdi, hwd.priv, Nat.sub_eq_of_eq_add (h.left_add_freed N).symm] at hgo
  have hdepth := cutInode_depth (N := N) h.root
  -- the released log is the walk's in both cases: ending the chain frees nothing
  have hrel := hur.trans hwd.touched.released
  rcases hd : di.iList.lTreeDepth with _ | d
  · refine ⟨u, ?_, huf, hrel, .root _⟩
    rw [hgo, endLeafChain, if_pos (hdepth.trans hd)]
    rfl
  · have hd0 : di.iList.lTreeDepth ≠ 0 := by omega
    have hwl := h.root.node hd0
    have hst := hwd.stored
    have hne := hleft hd0
    unfold rootCut at *
    rw [hd] at hwl hdepth hst hne hrel ⊢
    rw [← hue] at hst
    have hlne : treeLeaves (d + 1) (cut fs N (d + 1) di.iList ks).kids ≠ [] :=
      cut_leaves_ne hwl hne
    obtain ⟨left, last, hl⟩ : ∃ left last,
        treeLeaves (d + 1) (cut fs N (d + 1) di.iList ks).kids = left ++ [last] :=
      ⟨_, _, (dropLast_append_getLast hlne).symm⟩
    have hmem : last ∈ treeLeaves (d + 1) (cut fs N (d + 1) di.iList ks).kids := by
      rw [hl]
      simp
    have hblk : last.hBlkno ∈ treeBlocks (d + 1) ks :=
      (cut_blocks hwl (le_refl _)).mem_iff.mpr (mem_append_left _ (stored_leaf hst last hmem).2)
    have hlast : (cutInode fs N di ks).iLastEbBlk = last.hBlkno := by
      show lastBlk 0 (treeLeaves di.iList.lTreeDepth _) = _
      rw [hd, hl, lastBlk, getLast?_concat]
    obtain ⟨v, hv, hvf, hvr, hve⟩ := endLeafChain_run (by omega) huf hst hl hlast
      (h.ready.range _ (hd ▸ hblk)) (cut_leaf_le hwl last hmem)
    refine ⟨v, ?_, hvf, hvr.trans hrel, hve⟩
    rw [hgo, bind_ok hv]
    rfl

theorem extentIterateInode_bad (hd : di.iList.lTreeDepth ≠ 0)
    (hgone : (rootCut fs N di ks).kids = []) :
    ∃ t, extentIterateInode fs ⟨true, false⟩ (truncateIterate fs di.iBlkno N) di di.iClusters s =
        some (.error .badBlkno, t) := by
  obtain ⟨t, ctxt, hrun, hwd⟩ := h.root_walk N
  obtain ⟨u, huf, hue, hur, hgo⟩ :=
    extentIterateInode_walked h.walk h.range hrun hwd.touched.faults
  have hzero : ctxt.lastEbBlkno = 0 := by
    rw [hwd.last, hgone, treeLeaves_nil]
    rfl
  have hread0 : readExtentBlock fs 0 u = some (.error .badBlkno, u) := rfl
  refine ⟨u, ?_⟩
  rw [hgo]
  apply bind_error
  rw [endLeafChain, if_neg (by rw [show ({ di with iList := _, iLastEbBlk := _ } : Dinode).iList =
    (cutInode fs N di ks).iList from rfl, cutInode_depth h.root]; exact hd)]
  apply bind_error
  rw [hzero]
  exact hread0

end Cuttable

/-! ### The tree that is left -/

/-- The blocks of the tree whose root list is `el`, as read from the device. -/
def diskBlocks (ebs : Nat → Option ExtentBlock) (el : ExtentList) : List Nat :=
  match readKids ebs el.lTreeDepth el with
  | some ks => treeBlocks el.lTreeDepth ks
  | none => []

theorem LeafChain.cut_short : ∀ {left old last last'},
    (left ++ [last]).map leafKey <+: old.map leafKey → LeafChain old →
    last'.hBlkno = last.hBlkno → last'.hNextLeafBlk = 0 → LeafChain (left ++ [last'])
  | [], _, _, _, _, _, _, hn => hn
  | x :: left, [], _, _, hp, _, _, _ => by simp at hp
  | [x], [y], _, _, hp, _, _, _ => by simp [prefix_cons_iff] at hp
  | x :: x' :: left, [y], _, _, hp, _, _, _ => by simp [prefix_cons_iff] at hp
  | [x], y :: z :: old, last, last', hp, hc, hb, hn => by
    simp only [singleton_append, map_cons, map_nil, cons_prefix_cons] at hp
    have h1 := congrArg Prod.snd hp.1
    have h2 := congrArg Prod.fst hp.2.1
    exact ⟨h1.trans (hc.1.trans (h2.symm.trans hb.symm)), hn⟩
  | x :: x' :: left, y :: z :: old, last, last', hp, hc, hb, hn => by
    simp only [cons_append, map_cons, cons_prefix_cons] at hp
    have h1 := congrArg Prod.snd hp.1
    have h2 := congrArg Prod.fst hp.2.1
    have hrest : ((x' :: left) ++ [last]).map leafKey <+: (z :: old).map leafKey := by
      simpa using hp.2
    exact ⟨h1.trans (hc.1.trans h2.symm), LeafChain.cut_short hrest hc.2 hb hn⟩

theorem Tiled.widen {α : Type} {start len : α → Nat} : ∀ {as lo hi hi'},
    Tiled start len lo as hi → hi ≤ hi' → Tiled start len lo as hi'
  | [], _, _, _, h, hle => le_trans h hle
  | _ :: _, _, _, _, h, hle => ⟨h.1, h.2.1, h.2.2.widen hle⟩

theorem WfList.widen {d lo hi hi' : Nat} {right : Bool} (h : WfList fs d right lo hi el ks)
    (hle : hi ≤ hi') : WfList fs d right lo hi' el ks := by
  cases d with
  | zero => exact ⟨⟨h.1.depth, h.1.le, h.1.spaced.weaken (le_refl _) hle, h.1.recs⟩, h.2⟩
  | succ d => exact ⟨⟨h.1.depth, h.1.le, h.1.ne, h.1.fits, h.1.tiled.widen hle⟩, h.2⟩

/-- What the device holds of a tree: how it is read, its records and its blocks. -/
structure TreeIs (fs : Filesys) (ebs : Nat → Option ExtentBlock) (di : Dinode)
    (recs : List ExtentRec) (blocks : List Nat) : Prop where
  wf : WfTree fs ebs di
  recs : diskRecs ebs di.iList = recs
  blocks : diskBlocks ebs di.iList = blocks

theorem TreeIs.of_readKids {blocks : List Nat}
    (hread : readKids ebs di.iList.lTreeDepth di.iList = some ks) (hw : WfRoot fs di ks)
    (hr : treeRecs di.iList.lTreeDepth di.iList ks = recs)
    (hb : treeBlocks di.iList.lTreeDepth ks = blocks) : TreeIs fs ebs di recs blocks := by
  refine ⟨⟨ks, hread, hw⟩, ?_, ?_⟩
  · rw [diskRecs, hread]
    exact hr
  · rw [diskBlocks, hread]
    exact hb

/-- **What a walk that is right leaves.** -/
theorem cutInode_wf {ebs' : Nat → Option ExtentBlock} (hw : WfRoot fs di ks)
    (hread : readKids ebs di.iList.lTreeDepth di.iList = some ks)
    (hok : CutOk N di.iList.lTreeDepth di.iList ks) (hkeep : SomeKept N di ks)
    (hend : Ended ebs' di.iList.lTreeDepth (rootCut fs N di ks).kids) :
    TreeIs fs ebs' (cutInode fs N di ks) (cutRecs N (rootRecs di ks))
      (treeBlocks di.iList.lTreeDepth (rootCut fs N di ks).kids) := by
  unfold rootCut rootRecs at *
  have hdepth := cutInode_depth (N := N) hw
  rcases hd : di.iList.lTreeDepth with _ | d
  · rw [hd] at hdepth hread hok
    have hks : ks = [] := (Option.some.inj hread).symm
    subst hks
    have hL := hw.leaf hd
    obtain ⟨h1, h2⟩ := leaf_cut hL hok (Nat.zero_le uint32Max) (min_le_left _ _)
    have hel : (cutInode fs N di []).iList = (cut fs N 0 di.iList []).el := by
      show (cut fs N di.iList.lTreeDepth di.iList []).el = _
      rw [hd]
    have hcount : (cutInode fs N di []).iList.lCount = di.iList.lCount := by
      rw [hel]
      exact finishEl_lCount (length_map ..) hL.le
    have hrd : readKids ebs' (cutInode fs N di []).iList.lTreeDepth (cutInode fs N di []).iList =
        some [] := by
      rw [hdepth]
      rfl
    refine TreeIs.of_readKids hrd ?_ ?_ ?_
    · refine ⟨?_, ?_, ?_, fun _ => hel ▸ h1, fun h => absurd hdepth h, ?_, ?_, ?_, ?_⟩
      · rw [hdepth]
        exact hd ▸ hw.depth_lt
      · exact hcount ▸ hw.count_pos
      · exact hcount ▸ hw.count_le
      · rw [hdepth]
        exact nodup_nil
      · rw [hdepth]
        intro b hb
        cases hb
      · rw [hdepth]
        trivial
      · rw [hdepth]
        show lastBlk 0 (treeLeaves di.iList.lTreeDepth _) = _
        rw [hd]
        rfl
    · rw [hdepth, hel, treeRecs, h2]
      rfl
    · rw [hdepth]
      rfl
  · have hd0 : di.iList.lTreeDepth ≠ 0 := by omega
    have hnode := hw.node hd0
    have hkeep' := hkeep hd0
    unfold rootRecs at hkeep'
    rw [hd] at hdepth hread hok hkeep' hend hnode
    obtain ⟨hwf, hrecs, hrd⟩ := cut_wf hnode (le_refl _) hok hkeep'
    have hblocks := cut_blocks (N := N) hnode (le_refl _)
    have hnd : (treeBlocks (d + 1) ks).Nodup := hd ▸ hw.nodup
    have hel : (cutInode fs N di ks).iList = (cut fs N (d + 1) di.iList ks).el := by
      show (cut fs N di.iList.lTreeDepth di.iList ks).el = _
      rw [hd]
    have hcount : (cutInode fs N di ks).iList.lCount = di.iList.lCount := by
      rw [hel]
      exact (cut_shape hnode).2.1
    cases hend with
    | @tree _ _ left last ebs1 stored leaves ends =>
      have hdev : ebs' last.hBlkno = some { last with hNextLeafBlk := 0 } := by
        rw [ends, if_pos rfl]
      obtain ⟨ks', hread', hl', hb', hwf', -⟩ := readKids_setLast hdev rfl rfl hwf
        (hrd ebs ebs1 hread stored) (nodup_append.mp (hblocks.nodup_iff.mp hnd)).1 leaves
        fun b _ hne => by rw [ends, if_neg hne]
      rw [← hel, ← hdepth] at hread'
      refine TreeIs.of_readKids hread' ?_ ?_ ?_
      · refine ⟨?_, ?_, ?_, fun h => by omega, fun _ => ?_, ?_, ?_, ?_, ?_⟩
        · rw [hdepth]
          exact hd ▸ hw.depth_lt
        · exact hcount ▸ hw.count_pos
        · exact hcount ▸ hw.count_le
        · rw [hdepth, hel]
          exact hwf'.widen (min_le_left _ _)
        · rw [hdepth, hb']
          exact (nodup_append.mp (hblocks.nodup_iff.mp hnd)).1
        · rw [hdepth, hb']
          intro b hb
          exact hw.range b (hd ▸ hblocks.mem_iff.mpr (mem_append_left _ hb))
        · rw [hdepth, hl']
          have hchain : LeafChain (treeLeaves (d + 1) ks) := hd ▸ hw.chain
          have hkeys := cut_leaves (N := N) hnode
          rw [leaves] at hkeys
          exact LeafChain.cut_short hkeys hchain rfl rfl
        · rw [hdepth, hl', lastLeafBlk, getLast?_concat]
          show lastBlk 0 (treeLeaves di.iList.lTreeDepth _) = _
          rw [hd, leaves, lastBlk, getLast?_concat]
      · rw [hdepth, ← hrecs, treeRecs_eq_leaves, treeRecs_eq_leaves, hl', leaves,
          flatMap_append, flatMap_append]
        rfl
      · rw [hdepth, hb']

end Ocfs2Tools
