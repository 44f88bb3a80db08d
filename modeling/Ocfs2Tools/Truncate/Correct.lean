import Ocfs2Tools.Truncate.Inode

/-!
# Cutting a file: the whole function

`ocfs2_truncate` does what it should exactly if three things hold of the inode it is
given. The walk must be right about the tree (`CutOk`); below an interior root something
must be left, since the end of the leaf chain is otherwise looked for in block 0; and
nothing may be mapped between the new end and the size the function really cuts at,
which is the old one for an inode with crashed direct I/O. The cluster around the new
end must not be shared either: copying it is not this function's doing.
-/

namespace Ocfs2Tools

open List Prog ExtentRec

variable {fs : Filesys} {N e : Nat} {s t u : St} {di : Dinode} {ks : List Node}
  {x : Nat × Nat} {di' : Dinode} {recs : List ExtentRec} {v newISize C : Nat}

/-! ### The tail -/

/-- `ocfs2_refcount_cow` that finds no room. -/
def noCow : Dinode → Nat → M Dinode := fun _ _ => Prog.fail .io

theorem emptyTail_run (fs : Filesys) (h : s.faults = []) (pBlkno newSize : Nat) :
    ∃ t, emptyTail fs pBlkno newSize s = some (.ok (), t) ∧ t.faults = [] ∧
      t.dev.ebs = s.dev.ebs ∧ t.released = s.released := by
  refine ⟨_, (bind_ok rfl _).trans (writeBlock_noFault h), h, rfl, rfl⟩

theorem extentMapGetBlocks_tail (hw : WfTree fs s.dev.ebs di) (v : Nat) :
    ∃ b, extentMapGetBlocks fs di v s = some (.ok b, s) ∧
      (treeMap fs s.dev.ebs di.iList (blocksToClusters fs v) = none → b.pBlkno = 0) ∧
      ∀ x, treeMap fs s.dev.ebs di.iList (blocksToClusters fs v) = some x →
        b.pBlkno ≠ 0 ∧ b.extentFlags = x.2 := by
  have hle : blocksToClusters fs v ≤ uint32Max := by
    unfold blocksToClusters
    split <;> omega
  obtain ⟨c, hrun, hc⟩ := getClusters_lookup hw hle
  refine ⟨_, bind_ok hrun _, ?_, ?_⟩
  · intro hnone
    rw [treeMap] at hnone
    rw [LookupOk, hnone] at hc
    exact if_neg (by rw [hc.1]; decide)
  · intro x hx
    rw [treeMap] at hx
    rw [LookupOk, hx] at hc
    obtain ⟨h1, h2, r, hr, hcov, -⟩ := hc
    have hok := hw.recs_ok r hr
    have hblk : x.1 = r.eBlkno + clustersToBlocks fs (blocksToClusters fs v - r.eCpos) :=
      congrArg Prod.fst (Option.some.inj (hx.symm.trans (recsMap_of_mem hw.recs_spaced hr hcov)))
    have hne := hok.blkno_ne
    have hp : c.pCluster ≠ 0 := by
      intro h0
      rw [h0] at h1
      unfold clustersToBlocks at h1 hblk
      omega
    refine ⟨?_, h2⟩
    show (if c.pCluster ≠ 0 then clustersToBlocks fs c.pCluster + v % fs.bpc else 0) ≠ 0
    rw [if_pos hp]
    omega

theorem zeroTailForTruncate_run (cow : Dinode → Nat → M Dinode)
    (hw : WfTree fs s.dev.ebs di) (hf : s.faults = [])
    (hown : e ≠ 0 → ∀ x, treeMap fs s.dev.ebs di.iList
      (blocksToClusters fs (e / fs.fsBlocksize)) = some x → hasFlag x.2 extRefcounted = false) :
    ∃ t, zeroTailForTruncate fs cow di e s = some (.ok di, t) ∧ t.faults = [] ∧
      t.dev.ebs = s.dev.ebs ∧ t.released = s.released := by
  by_cases h0 : e = 0
  · exact ⟨s, by rw [zeroTailForTruncate, if_pos h0]; rfl, hf, rfl, rfl⟩
  obtain ⟨b, hrun, hnone, hsome⟩ := extentMapGetBlocks_tail hw (e / fs.fsBlocksize)
  rw [zeroTailForTruncate, if_neg h0, bind_ok hrun]
  cases hx : treeMap fs s.dev.ebs di.iList (blocksToClusters fs (e / fs.fsBlocksize)) with
  | none => exact ⟨s, by rw [if_pos (hnone hx)]; rfl, hf, rfl, rfl⟩
  | some x =>
    obtain ⟨hp, hfl⟩ := hsome x hx
    obtain ⟨t, ht, h1, h2, h3⟩ := emptyTail_run fs hf b.pBlkno e
    refine ⟨t, ?_, h1, h2, h3⟩
    rw [if_neg hp, if_neg (by rw [hfl, hown h0 x hx]; decide), bind_ok ht]
    rfl

theorem zeroTailForTruncate_shared (hw : WfTree fs s.dev.ebs di) (h0 : e ≠ 0)
    (hx : treeMap fs s.dev.ebs di.iList (blocksToClusters fs (e / fs.fsBlocksize)) = some x)
    (hshared : hasFlag x.2 extRefcounted = true) :
    zeroTailForTruncate fs noCow di e s = some (.error .io, s) := by
  obtain ⟨b, hrun, -, hsome⟩ := extentMapGetBlocks_tail hw (e / fs.fsBlocksize)
  obtain ⟨hp, hfl⟩ := hsome x hx
  rw [zeroTailForTruncate, if_neg h0, bind_ok hrun, if_neg hp, if_pos (by rw [hfl, hshared])]
  rfl

theorem extentMapGetBlocks_keeps {I : St → Prop} (fs : Filesys) (di : Dinode) (v : Nat) :
    Prog.Keeps I (extentMapGetBlocks fs di v) := by
  exact keeps_bind (getClusters_keeps fs di _) fun _ => keeps_pure _

theorem zeroTailForTruncate_inv (hf : s.faults = [])
    (h : zeroTailForTruncate fs noCow di e s = some (.ok di', t)) :
    di' = di ∧ t.faults = [] ∧ t.dev.ebs = s.dev.ebs ∧ t.released = s.released := by
  unfold zeroTailForTruncate at h
  split at h
  · obtain ⟨rfl, rfl⟩ := h
    exact ⟨rfl, hf, rfl, rfl⟩
  · obtain ⟨b, u, hrun, hrest⟩ := bind_eq_ok h
    have hu : u = s := extentMapGetBlocks_keeps (I := (· = s)) fs di _ s _ u rfl hrun
    subst hu
    split at hrest
    · obtain ⟨rfl, rfl⟩ := hrest
      exact ⟨rfl, hf, rfl, rfl⟩
    · split at hrest
      · obtain ⟨_, _, hcow, -⟩ := bind_eq_ok hrest
        cases hcow
      · obtain ⟨t', ht, h1, h2, h3⟩ := emptyTail_run fs hf b.pBlkno e
        rw [bind_ok ht] at hrest
        obtain ⟨rfl, rfl⟩ := hrest
        exact ⟨rfl, h1, h2, h3⟩

/-! ### From the label `truncate` on -/

theorem readInode_run (hrange : outOfRange fs s.dev.inode.iBlkno = false) :
    readInode fs s = some (.ok s.dev.inode, s) := by
  rw [readInode, hrange, if_neg (by decide)]

theorem detachRefcountTree_run (hf : s.faults = [])
    (hrange : outOfRange fs s.dev.inode.iBlkno = false) :
    ∃ t, detachRefcountTree fs s = some (.ok (), t) ∧ t.dev.ebs = s.dev.ebs ∧
      t.released = s.released ∧ t.dev.inode.iList = s.dev.inode.iList ∧
      t.dev.inode.iLastEbBlk = s.dev.inode.iLastEbBlk ∧
      t.dev.inode.iClusters = s.dev.inode.iClusters := by
  have hrange' : outOfRange fs ({ s.dev.inode with
      iRefcountLoc := 0
      iDynFeatures := clearFlag s.dev.inode.iDynFeatures hasRefcountFl }).iBlkno =
      false := hrange
  exact ⟨_, (bind_ok (readInode_run hrange) _).trans (writeInode_run hf hrange'), rfl, rfl, rfl,
      rfl, rfl⟩

theorem writeTruncated_run {n : Nat} (hf : s.faults = [])
    (hrange : outOfRange fs di.iBlkno = false) (hn : n = 0 → di.iList.lTreeDepth = 0) :
    ∃ t, writeTruncated fs di n e s = some (.ok (), t) ∧ t.dev.ebs = s.dev.ebs ∧
      t.released = s.released ∧ t.dev.inode.iList = di.iList ∧
      t.dev.inode.iLastEbBlk = di.iLastEbBlk ∧ t.dev.inode.iClusters = n := by
  have hel : (if n = 0 then { di.iList with lTreeDepth := 0 } else di.iList) = di.iList := by
    split
    · rename_i h
      rw [← hn h]
    · rfl
  have hrange' : outOfRange fs
      ({ di with iClusters := n, iList := di.iList, iSize := e }).iBlkno = false := hrange
  have hw := writeInode_run hf hrange'
  unfold writeTruncated
  simp only [hel, bind_ok hw]
  split
  · exact detachRefcountTree_run hf hrange'
  · exact ⟨_, rfl, rfl, rfl, rfl, rfl, rfl⟩

/-- What cutting at cluster `N` has left. -/
structure Truncated (fs : Filesys) (N : Nat) (s : St) (di : Dinode) (ks : List Node) (t : St) :
    Prop where
  list : t.dev.inode.iList = (cutInode fs N di ks).iList
  last : t.dev.inode.iLastEbBlk = (cutInode fs N di ks).iLastEbBlk
  clusters : t.dev.inode.iClusters =
    clusterSum (cutRecs N (treeRecs di.iList.lTreeDepth di.iList ks))
  released : t.released = (cut fs N di.iList.lTreeDepth di.iList ks).log.reverse ++ s.released
  ended : Ended t.dev.ebs di.iList.lTreeDepth (cut fs N di.iList.lTreeDepth di.iList ks).kids

namespace Cuttable

variable (h : Cuttable fs s di ks)

include h

theorem extents : ¬ ((isLnk di ∧ di.iClusters = 0) ∨ hasFlag di.iDynFeatures inlineDataFl) := by
  rintro (hs | hi)
  · exact h.symlink hs
  · rw [h.walk.extents] at hi
    cases hi

theorem kept (hd : di.iList.lTreeDepth ≠ 0) (hne : (rootCut fs N di ks).kids ≠ []) :
    ∃ r ∈ rootRecs di ks, r.eCpos < N := by
  by_contra hno
  simp only [not_exists, not_and, not_lt] at hno
  exact hne (cut_emptied (h.root.node hd) (le_refl _) (cut_empty (h.root.node hd) hno))

theorem no_clusters (hleft : KidsLeft fs N di ks)
    (h0 : clusterSum (cutRecs N (rootRecs di ks)) = 0) :
    (cutInode fs N di ks).iList.lTreeDepth = 0 := by
  rw [cutInode_depth h.root]
  by_contra hd
  obtain ⟨r, hr, hrN⟩ := h.kept hd (hleft hd)
  have hs : Spaced _ _ 0 (rootRecs di ks) _ := h.root.recs_spaced
  have hpos := clusterSum_pos (cutRecs_spaced hs (Nat.zero_le _) (min_le_left _ N))
    (cutRecs_ne hs hr hrN)
  omega

theorem walked (cow : Dinode → Nat → M Dinode)
    (hleft : KidsLeft fs (newSizeInClusters fs e) di ks) :
    ∃ u, u.faults = [] ∧ u.released = (rootCut fs (newSizeInClusters fs e) di ks).log.reverse ++
          s.released ∧ Ended u.dev.ebs di.iList.lTreeDepth
        (rootCut fs (newSizeInClusters fs e) di ks).kids ∧ truncateTo fs cow di e s = (do
        let di' ← zeroTailForTruncate fs cow (cutInode fs (newSizeInClusters fs e) di ks) e
        writeTruncated fs di' (clusterSum (cutRecs (newSizeInClusters fs e)
          (rootRecs di ks))) e : M Unit) u := by
  obtain ⟨u, hrun, hf, hrel, hend⟩ := h.extentIterateInode_run hleft
  refine ⟨u, hf, hrel, hend, ?_⟩
  rw [truncateTo, if_neg h.extents, zeroTailAndTruncate, bind_bind, bind_ok hrun]
  rw [bind_bind]
  rfl

end Cuttable

/-! ### Where the tail is -/

theorem blocksToClusters_div (e : Nat) :
    blocksToClusters fs (e / fs.fsBlocksize) = min (e / fs.fsClustersize) uint32Max := by
  rw [blocksToClusters, Nat.div_div_eq_div_mul, ← fs.fsClustersize_eq]
  split <;> omega

theorem clusterCeil_eq (e : Nat) : clusterCeil fs e =
    e / fs.fsClustersize + if e % fs.fsClustersize = 0 then 0 else 1 := by
  have hpos : 0 < fs.fsClustersize := Nat.two_pow_pos _
  have hdm := Nat.div_add_mod e fs.fsClustersize
  have hlt := Nat.mod_lt e hpos
  rw [clusterCeil, Nat.div_eq_iff hpos]
  split
  · rw [Nat.add_zero, Nat.mul_comm]
    omega
  · rw [Nat.add_mul, Nat.mul_comm]
    omega

theorem clusterCeil_mono {a b : Nat} (h : a ≤ b) : clusterCeil fs a ≤ clusterCeil fs b :=
  Nat.div_le_div_right (by omega)

theorem tail_map {map : Nat → Option (Nat × Nat)} (he : e < 18446744073709551616)
    (hmap : ∀ v, uint32Max ≤ v → map v = none) :
    (if blocksToClusters fs (e / fs.fsBlocksize) < newSizeInClusters fs e then
        map (blocksToClusters fs (e / fs.fsBlocksize)) else none) =
      if e % fs.fsClustersize ≠ 0 then map (e / fs.fsClustersize) else none := by
  rw [blocksToClusters_div, newSizeInClusters_eq he, clusterCeil_eq]
  by_cases hm : e % fs.fsClustersize = 0
  · rw [if_pos hm, if_neg (by omega), if_neg (by simpa using hm)]
  · rw [if_neg hm, if_pos hm]
    by_cases hq : e / fs.fsClustersize < uint32Max
    · rw [if_pos (by omega), min_eq_left (by omega)]
    · rw [if_neg (by omega), hmap _ (by omega)]

theorem Cuttable.map_none (h : Cuttable fs s di ks) (hv : uint32Max ≤ v) :
    recsMap fs (rootRecs di ks) v = none := by
  refine recsMap_eq_none.mpr fun r hr hc => ?_
  have h1 := (h.root.recs_spaced.mem_bounds r hr).2.2
  have h2 := hc.2
  omega

/-- The cluster around the new end is the file's own. -/
def TailOwn (fs : Filesys) (e : Nat) (map : Nat → Option (Nat × Nat)) : Prop :=
  e % fs.fsClustersize ≠ 0 → ∀ x, map (e / fs.fsClustersize) = some x →
    hasFlag x.2 extRefcounted = false

namespace Cuttable

variable (h : Cuttable fs s di ks)

include h

theorem left_kids (hok : CutOk N di.iList.lTreeDepth di.iList ks) (hkeep : SomeKept N di ks) :
    KidsLeft fs N di ks := by
  intro hd hnil
  have hnode := h.root.node hd
  have hex := hkeep hd
  unfold rootCut at hnil
  unfold rootRecs at hex
  obtain ⟨d, hd'⟩ := Nat.exists_eq_succ_of_ne_zero hd
  rw [hd'] at hnode hok hex hnil
  have hw := (cut_wf hnode (le_refl _) hok hex).1
  rw [hnil] at hw
  exact hw.1.ne (length_eq_zero_iff.mp hw.2.2.length_eq)

theorem tail_lookup (he : e < 18446744073709551616) {ebs : Nat → Option ExtentBlock}
    {blocks : List Nat} (htree : TreeIs fs ebs (cutInode fs (newSizeInClusters fs e) di ks)
      (cutRecs (newSizeInClusters fs e) (rootRecs di ks)) blocks) :
    treeMap fs ebs (cutInode fs (newSizeInClusters fs e) di ks).iList
        (blocksToClusters fs (e / fs.fsBlocksize)) =
      if e % fs.fsClustersize ≠ 0 then
        recsMap fs (rootRecs di ks) (e / fs.fsClustersize)
      else none := by
  rw [treeMap, htree.recs, recsMap_cutRecs]
  exact tail_map he fun v hv => h.map_none hv

/-- **A cut that is right.** -/
theorem run (he : e < 18446744073709551616) (cow : Dinode → Nat → M Dinode)
    (hok : CutOk (newSizeInClusters fs e) di.iList.lTreeDepth di.iList ks)
    (hkeep : SomeKept (newSizeInClusters fs e) di ks)
    (hown : TailOwn fs e (recsMap fs (rootRecs di ks))) :
    ∃ t, truncateTo fs cow di e s = some (.ok (), t) ∧
      Truncated fs (newSizeInClusters fs e) s di ks t := by
  have hleft := h.left_kids hok hkeep
  obtain ⟨u, hf, hrel, hend, hgo⟩ := h.walked cow hleft
  have htree := cutInode_wf h.root h.read hok hkeep hend
  have hmap := h.tail_lookup he htree
  obtain ⟨v, hz, hvf, hve, hvr⟩ := zeroTailForTruncate_run cow htree.wf hf (by
    intro _ x hx
    rw [hmap] at hx
    split at hx
    · exact hown ‹_› x hx
    · cases hx)
  obtain ⟨t, ht, hte, htr, htl, hta, htc⟩ := writeTruncated_run hvf
    (show outOfRange fs (cutInode fs (newSizeInClusters fs e) di ks).iBlkno = false from h.range)
    (h.no_clusters hleft)
  refine ⟨t, ?_, htl, hta, htc, htr.trans (hvr.trans hrel), ?_⟩
  · rw [hgo, bind_ok hz, ht]
  · rw [hte, hve]
    exact hend

theorem shared (he : e < 18446744073709551616)
    (hok : CutOk (newSizeInClusters fs e) di.iList.lTreeDepth di.iList ks)
    (hkeep : SomeKept (newSizeInClusters fs e) di ks)
    (hown : ¬ TailOwn fs e (recsMap fs (rootRecs di ks))) :
    ∃ t, truncateTo fs noCow di e s = some (.error .io, t) := by
  have hleft := h.left_kids hok hkeep
  obtain ⟨u, hf, hrel, hend, hgo⟩ := h.walked noCow hleft
  have htree := cutInode_wf h.root h.read hok hkeep hend
  have hmap := h.tail_lookup he htree
  unfold TailOwn at hown
  push Not at hown
  obtain ⟨hm, x, hx, hfl⟩ := hown
  rw [if_pos hm, hx] at hmap
  have hzero := zeroTailForTruncate_shared htree.wf (fun h0 => hm (by rw [h0]; simp)) hmap
    (by simpa using hfl)
  exact ⟨u, by rw [hgo, bind_error hzero]⟩

theorem inv (hrun : truncateTo fs noCow di e s = some (.ok (),
    t)) : (KidsLeft fs (newSizeInClusters fs e) di ks) ∧
      Truncated fs (newSizeInClusters fs e) s di ks t := by
  have hleft : KidsLeft fs (newSizeInClusters fs e) di ks := by
    intro hd hgone
    obtain ⟨u, hbad⟩ := h.extentIterateInode_bad hd hgone
    rw [truncateTo, if_neg h.extents, zeroTailAndTruncate, bind_error (bind_error hbad _)] at hrun
    cases hrun
  refine ⟨hleft, ?_⟩
  obtain ⟨u, hf, hrel, hend, hgo⟩ := h.walked noCow hleft
  rw [hgo] at hrun
  obtain ⟨di', v, hz, hrest⟩ := bind_eq_ok hrun
  obtain ⟨rfl, hvf, hve, hvr⟩ := zeroTailForTruncate_inv hf hz
  obtain ⟨t', ht, hte, htr, htl, hta, htc⟩ := writeTruncated_run hvf
    (show outOfRange fs (cutInode fs (newSizeInClusters fs e) di ks).iBlkno = false from h.range)
    (h.no_clusters hleft)
  rw [ht] at hrest
  simp only [Option.some.injEq, Prod.mk.injEq, true_and] at hrest
  subst hrest
  refine ⟨htl, hta, htc, htr.trans (hvr.trans hrel), ?_⟩
  rw [hte, hve]
  exact hend

end Cuttable

/-! ### What the function is for -/

/-- The inode has an extent tree that is all there: its blocks are allocated, and
    `i_clusters` counts what it maps. No write fails. -/
structure TruncateReady (fs : Filesys) (s : St) : Prop where
  tree : WfTree fs s.dev.ebs s.dev.inode
  used : ∀ b ∈ diskBlocks s.dev.ebs s.dev.inode.iList, ∀ eb, s.dev.ebs b = some eb →
    s.dev.used eb.hSuballocSlot b = true
  clusters : s.dev.inode.iClusters = clusterSum (diskRecs s.dev.ebs s.dev.inode.iList)
  size_lt : s.dev.inode.iSize < 18446744073709551616
  walk : Walkable s.dev.inode
  symlink : ¬ (isLnk s.dev.inode ∧ s.dev.inode.iClusters = 0)
  range : outOfRange fs s.dev.inode.iBlkno = false
  faults : s.faults = []

/-- The file was cut at `newISize`: what was mapped before the new end still is and nothing else,
    what left the tree was given back once, and the inode on disk describes a well-formed tree. -/
structure TruncateDone (fs : Filesys) (s : St) (newISize : Nat) (t : St) : Prop where
  wf : WfTree fs t.dev.ebs t.dev.inode
  map : ∀ v, treeMap fs t.dev.ebs t.dev.inode.iList v =
    if v < clusterCeil fs newISize then treeMap fs s.dev.ebs s.dev.inode.iList v else none
  released : ∃ log, t.released = log ++ s.released ∧
    (clusterLog fs log).Perm ((diskRecs s.dev.ebs s.dev.inode.iList).flatMap
      (clustersFrom fs (clusterCeil fs newISize))) ∧
    (diskBlocks s.dev.ebs s.dev.inode.iList).Perm
      (diskBlocks t.dev.ebs t.dev.inode.iList ++ blockLog log)
  clusters : t.dev.inode.iClusters = clusterSum (diskRecs t.dev.ebs t.dev.inode.iList)

/-- The size `ocfs2_truncate` cuts at: the old one if direct I/O crashed. -/
def truncateSize (di : Dinode) (newISize : Nat) : Nat :=
  if hasFlag di.iFlags dioOrphanedFl then di.iSize else newISize

/-- The inodes that `ocfs2_truncate` cuts right. -/
structure TruncateFits (fs : Filesys) (s : St) (newISize : Nat) : Prop where
  walk : ∀ ks, readKids s.dev.ebs s.dev.inode.iList.lTreeDepth s.dev.inode.iList = some ks →
    CutOk (newSizeInClusters fs (truncateSize s.dev.inode newISize))
      s.dev.inode.iList.lTreeDepth s.dev.inode.iList ks
  kept : s.dev.inode.iList.lTreeDepth ≠ 0 → ∃ r ∈ diskRecs s.dev.ebs s.dev.inode.iList,
    r.eCpos < newSizeInClusters fs (truncateSize s.dev.inode newISize)
  own : TailOwn fs (truncateSize s.dev.inode newISize) (treeMap fs s.dev.ebs s.dev.inode.iList)
  behind : ∀ v, clusterCeil fs newISize ≤ v →
    v < newSizeInClusters fs (truncateSize s.dev.inode newISize) →
    treeMap fs s.dev.ebs s.dev.inode.iList v = none

/-- The inode buffer that is cut. -/
def orphanCleared (di : Dinode) : Dinode :=
  if hasFlag di.iFlags dioOrphanedFl then
    { di with iFlags := clearFlag di.iFlags dioOrphanedFl }
  else di

@[simp] theorem orphanCleared_iList (di : Dinode) : (orphanCleared di).iList = di.iList := by
  unfold orphanCleared
  split <;> rfl

theorem truncate_eq (cow : Dinode → Nat → M Dinode) (extend : Nat → M Unit)
    (hrange : outOfRange fs s.dev.inode.iBlkno = false) (hsize : newISize < s.dev.inode.iSize) :
    truncate fs cow extend newISize s = truncateTo fs cow (orphanCleared s.dev.inode)
      (truncateSize s.dev.inode newISize) s := by
  rw [truncate, bind_ok (readInode_run hrange), orphanCleared, truncateSize]
  split
  · rfl
  · rw [if_neg (by omega), if_neg (by omega)]

theorem WfRoot.congr (h : WfRoot fs di ks) (hl : di'.iList = di.iList)
    (hb : di'.iLastEbBlk = di.iLastEbBlk) : WfRoot fs di' ks := by
  constructor <;> rw [hl]
  exacts [h.depth_lt, h.count_pos, h.count_le, h.leaf, h.node, h.nodup, h.range, h.chain,
    hb.trans h.last]

theorem WfTree.congr {ebs : Nat → Option ExtentBlock} (h : WfTree fs ebs di)
    (hl : di'.iList = di.iList) (hb : di'.iLastEbBlk = di.iLastEbBlk) : WfTree fs ebs di' := by
  obtain ⟨ks, hread, hw⟩ := h
  exact ⟨ks, by rw [hl]; exact hread, hw.congr hl hb⟩

theorem TruncateReady.cuttable (h : TruncateReady fs s)
    (hread : readKids s.dev.ebs s.dev.inode.iList.lTreeDepth s.dev.inode.iList = some ks)
    (hw : WfRoot fs s.dev.inode ks) : Cuttable fs s (orphanCleared s.dev.inode) ks := by
  have hrecs : diskRecs s.dev.ebs s.dev.inode.iList =
      treeRecs s.dev.inode.iList.lTreeDepth s.dev.inode.iList ks := by
    rw [diskRecs, hread]
  have hblocks : diskBlocks s.dev.ebs s.dev.inode.iList =
      treeBlocks s.dev.inode.iList.lTreeDepth ks := by
    rw [diskBlocks, hread]
  have hready : Ready fs s (treeBlocks s.dev.inode.iList.lTreeDepth ks) :=
    ⟨h.faults, hw.nodup, hw.range, hblocks ▸ h.used⟩
  have hclusters := h.clusters.trans (congrArg clusterSum hrecs)
  unfold orphanCleared
  split
  · refine ⟨hw.congr rfl rfl, hread, hready, hclusters, ⟨?_, ?_, h.walk.extents⟩, h.symlink,
      h.range⟩
    · exact (hasFlag_clearFlag (by decide) _).trans h.walk.valid
    · exact (hasFlag_clearFlag (by decide) _).trans h.walk.plain
  · exact ⟨hw, hread, hready, hclusters, h.walk, h.symlink, h.range⟩

/-! ### What is given back -/

theorem clustersFrom_congr {r : ExtentRec} (hpos : 0 < r.eLeafClusters)
    (h : ∀ v, Covers eCpos eLeafClusters r v → (C ≤ v ↔ N ≤ v)) :
    clustersFrom fs N r = clustersFrom fs C r := by
  have h1 := h r.eCpos ⟨le_refl _, by omega⟩
  have h2 := h (r.eCpos + r.eLeafClusters - 1) ⟨by omega, by omega⟩
  by_cases hC : C ≤ r.eCpos
  · have hN := h1.mp hC
    rw [clustersFrom, clustersFrom, Nat.sub_eq_zero_of_le hC, Nat.sub_eq_zero_of_le hN]
  · by_cases hC' : C ≤ r.eCpos + r.eLeafClusters - 1
    · have h3 := (h C ⟨by omega, by omega⟩).mp (le_refl _)
      have h4 := (h N ⟨by omega, by omega⟩).mpr (le_refl _)
      rw [le_antisymm h3 h4]
    · have e1 : r.eLeafClusters - (N - r.eCpos) = 0 := by omega
      have e2 : r.eLeafClusters - (C - r.eCpos) = 0 := by omega
      rw [clustersFrom, clustersFrom, e1, e2]
      rfl

theorem clustersFrom_length (r : ExtentRec) :
    (clustersFrom fs N r).length = r.eLeafClusters - (N - r.eCpos) := length_range' ..

theorem covers_between (hCN : C ≤ N)
    (h : (recs.flatMap (clustersFrom fs N)).length = (recs.flatMap (clustersFrom fs C)).length) :
    ∀ r ∈ recs, ∀ v, Covers eCpos eLeafClusters r v → C ≤ v → N ≤ v := by
  have hle : ∀ recs : List ExtentRec, (recs.flatMap (clustersFrom fs N)).length ≤
      (recs.flatMap (clustersFrom fs C)).length := by
    intro recs
    induction recs with
    | nil => exact le_refl _
    | cons r recs ih =>
      rw [flatMap_cons, flatMap_cons, length_append, length_append,
        clustersFrom_length, clustersFrom_length]
      omega
  induction recs with
  | nil =>
    intro r hr
    cases hr
  | cons x recs ih =>
    rw [flatMap_cons, flatMap_cons, length_append, length_append,
      clustersFrom_length, clustersFrom_length] at h
    have hrest := hle recs
    intro r hr v hc hv
    rcases mem_cons.mp hr with rfl | hr
    · have h1 := hc.1
      have h2 := hc.2
      omega
    · exact ih (by omega) r hr v hc hv

theorem Cuttable.clusterLog_eq (h : Cuttable fs s di ks) :
    clusterLog fs (rootCut fs N di ks).log = (rootRecs di ks).flatMap (clustersFrom fs N) := by
  by_cases hd : di.iList.lTreeDepth = 0
  · rw [rootCut, rootRecs, hd]
    exact leaf_clusters (h.root.leaf hd)
  · exact cut_clusters (h.root.node hd)

theorem Cuttable.blocks_perm (h : Cuttable fs s di ks) : (treeBlocks di.iList.lTreeDepth ks).Perm
      (treeBlocks di.iList.lTreeDepth (rootCut fs N di ks).kids ++
        blockLog (rootCut fs N di ks).log) := by
  by_cases hd : di.iList.lTreeDepth = 0
  · rw [rootCut, hd]
    show List.Perm [] ([] ++ blockLog (di.iList.live.flatMap (cutFreed fs N)))
    rw [leaf_blocks]
    rfl
  · exact cut_blocks (h.root.node hd) (le_refl _)

/-! ### When the cut is right -/

theorem recsMap_some (h : recsMap fs recs v = some x) :
    ∃ r ∈ recs, Covers eCpos eLeafClusters r v := by
  by_contra hno
  push Not at hno
  rw [recsMap_eq_none.mpr hno] at h
  cases h

theorem perm_clusterLog_reverse (log : List Release) :
    (clusterLog fs log.reverse).Perm (clusterLog fs log) :=
  (reverse_perm log).flatMap_right _

theorem perm_blockLog_reverse (log : List Release) : (blockLog log.reverse).Perm (blockLog log) :=
  (reverse_perm log).filterMap _

/-- No cluster of the file lies between `C` and `N`. -/
def SameEnd (C N : Nat) (recs : List ExtentRec) : Prop :=
  ∀ r ∈ recs, ∀ v, Covers eCpos eLeafClusters r v → (C ≤ v ↔ N ≤ v)

section Ends

variable {newISize : Nat} (hc : Cuttable fs s di ks) (hdi : di.iList = s.dev.inode.iList)

include hc hdi

theorem Cuttable.diskRecs_eq : diskRecs s.dev.ebs s.dev.inode.iList = rootRecs di ks := by
  rw [← hdi, diskRecs, hc.read]

theorem Cuttable.diskBlocks_eq : diskBlocks s.dev.ebs s.dev.inode.iList =
    treeBlocks di.iList.lTreeDepth ks := by
  rw [← hdi, diskBlocks, hc.read]

theorem Truncated.done (ht : Truncated fs N s di ks t)
    (hok : CutOk N di.iList.lTreeDepth di.iList ks) (hkeep : SomeKept N di ks)
    (hend : SameEnd (clusterCeil fs newISize) N (rootRecs di ks)) :
    TruncateDone fs s newISize t := by
  have htree := cutInode_wf hc.root hc.read hok hkeep ht.ended
  have hrecs : diskRecs t.dev.ebs t.dev.inode.iList =
      cutRecs N (rootRecs di ks) := by
    rw [ht.list, htree.recs]
  have hblocks : diskBlocks t.dev.ebs t.dev.inode.iList = treeBlocks di.iList.lTreeDepth
      (rootCut fs N di ks).kids := by
    rw [ht.list, htree.blocks]
  refine ⟨htree.wf.congr ht.list ht.last, fun v => ?_, ⟨_, ht.released, ?_, ?_⟩,
    ht.clusters.trans (congrArg clusterSum hrecs.symm)⟩
  · rw [treeMap, treeMap, hrecs, hc.diskRecs_eq hdi, recsMap_cutRecs]
    cases hx : recsMap fs (rootRecs di ks) v with
    | none => rw [ite_self, ite_self]
    | some x =>
      obtain ⟨r, hr, hcov⟩ := recsMap_some hx
      have hiff := hend r hr v hcov
      split
      · rw [if_pos (by omega)]
      · rw [if_neg (by omega)]
  · refine (perm_clusterLog_reverse _).trans ?_
    rw [hc.clusterLog_eq, hc.diskRecs_eq hdi]
    refine List.Perm.of_eq (flatMap_congr fun r hr => ?_)
    exact clustersFrom_congr (hc.root.recs_spaced.mem_bounds r hr).2.1 (hend r hr)
  · rw [hc.diskBlocks_eq hdi, hblocks]
    exact hc.blocks_perm.trans ((perm_blockLog_reverse _).symm.append_left _)

theorem Truncated.sameEnd (ht : Truncated fs N s di ks t) (hdone : TruncateDone fs s newISize t)
    (hle : min (clusterCeil fs newISize) uint32Max ≤ N)
    (hge : ∀ v, v < uint32Max → N ≤ v → clusterCeil fs newISize ≤ v) :
    SameEnd (clusterCeil fs newISize) N (rootRecs di ks) := by
  have hb := fun r hr => hc.root.recs_spaced.mem_bounds r hr
  obtain ⟨log, hlog, hperm, -⟩ := hdone.released
  have hlog' : log = (rootCut fs N di ks).log.reverse :=
    append_cancel_right (hlog.symm.trans ht.released)
  rw [hc.diskRecs_eq hdi, hlog'] at hperm
  have hlen := ((perm_clusterLog_reverse _).symm.trans hperm).length_eq
  rw [hc.clusterLog_eq] at hlen
  have hmin : (rootRecs di ks).flatMap
        (clustersFrom fs (clusterCeil fs newISize)) =
      (rootRecs di ks).flatMap
        (clustersFrom fs (min (clusterCeil fs newISize) uint32Max)) := by
    refine flatMap_congr fun r hr => clustersFrom_congr (hb r hr).2.1 fun v hv => ?_
    have h1 := (hb r hr).2.2
    have h2 := hv.2
    omega
  rw [hmin] at hlen
  intro r hr v hv
  have hlt : v < uint32Max := by
    have h1 := (hb r hr).2.2
    have h2 := hv.2
    omega
  constructor
  · intro hC
    exact covers_between hle hlen r hr v hv (by omega)
  · exact hge v hlt

theorem Truncated.cutOk (ht : Truncated fs N s di ks t) (hdone : TruncateDone fs s newISize t)
    (hend : SameEnd (clusterCeil fs newISize) N (rootRecs di ks))
    (hge : ∀ v, v < uint32Max → N ≤ v → clusterCeil fs newISize ≤ v) :
    CutOk N di.iList.lTreeDepth di.iList ks := by
  by_contra hok
  have hspaced := hdone.wf.recs_spaced
  have hwrong : Wrong N (rootRecs di ks)
      (diskRecs t.dev.ebs t.dev.inode.iList) := by
    obtain ⟨ks', hread', hw'⟩ := hdone.wf
    have hdepth : t.dev.inode.iList.lTreeDepth = di.iList.lTreeDepth := by
      rw [ht.list, cutInode_depth hc.root]
    rw [diskRecs, hread']
    have hlist : t.dev.inode.iList = (cut fs N di.iList.lTreeDepth di.iList ks).el := ht.list
    have hleaf := hw'.leaf
    have hnode := hw'.node
    unfold rootRecs
    rw [hdepth, hlist] at hread' hleaf hnode ⊢
    by_cases hd : di.iList.lTreeDepth = 0
    · have hroot := hc.root.leaf hd
      have hL := hleaf hd
      rw [hd] at hok hL ⊢
      exact leaf_wrong hroot hok hL
    · exact cut_wrong (hc.root.node hd) (le_refl _) hc.read hok ht.ended.holds hread' (hnode hd)
  rcases hwrong with ⟨r, hr, hrN, hno⟩ | ⟨x, hx, hxN⟩
  · -- a cluster that should have stayed
    have hpos := (hc.root.recs_spaced.mem_bounds r hr).2.1
    have hcov : Covers eCpos eLeafClusters r r.eCpos :=
      ⟨le_refl _, by omega⟩
    have hiff := hend r hr _ hcov
    have hmap := hdone.map r.eCpos
    rw [treeMap, treeMap, recsMap_eq_none.mpr hno, if_pos (by omega), hc.diskRecs_eq hdi,
      recsMap_of_mem hc.root.recs_spaced hr hcov] at hmap
    cases hmap
  · -- a cluster that should have gone
    obtain ⟨-, hpos, hxend⟩ := hspaced.mem_bounds x hx
    have hcov : Covers eCpos eLeafClusters x x.eCpos :=
      ⟨le_refl _, by omega⟩
    have hC := hge x.eCpos (by omega) hxN
    have hmap := hdone.map x.eCpos
    rw [treeMap, recsMap_of_mem hspaced hx hcov, if_neg (by omega)] at hmap
    cases hmap

end Ends

/-- **`ocfs2_truncate` cuts the file exactly if the inode fits.** Whatever
    `ocfs2_refcount_cow` does: it is only called for a shared tail. -/
theorem truncate_done_iff {newISize : Nat} (h : TruncateReady fs s)
    (hsize : newISize < s.dev.inode.iSize) :
    (∀ cow extend, ∃ t, truncate fs cow extend newISize s = some (.ok (), t) ∧
      TruncateDone fs s newISize t) ↔ TruncateFits fs s newISize := by
  obtain ⟨ks, hread, hw⟩ := h.tree
  have hc := h.cuttable hread hw
  have hdi : (orphanCleared s.dev.inode).iList = s.dev.inode.iList := orphanCleared_iList _
  have hbound := h.size_lt
  have he : newISize ≤ truncateSize s.dev.inode newISize ∧
      truncateSize s.dev.inode newISize < 18446744073709551616 := by
    unfold truncateSize
    split <;> omega
  have hceil : clusterCeil fs newISize ≤ clusterCeil fs (truncateSize s.dev.inode newISize) :=
    clusterCeil_mono he.1
  have hN : newSizeInClusters fs (truncateSize s.dev.inode newISize) = _ :=
    newSizeInClusters_eq he.2
  have hge : ∀ v, v < uint32Max → newSizeInClusters fs (truncateSize s.dev.inode newISize) ≤ v →
      clusterCeil fs newISize ≤ v := by
    omega
  have hrecs := hc.diskRecs_eq hdi
  constructor
  · intro hall
    obtain ⟨t, hrun, hdone⟩ := hall noCow fun _ => Prog.fail .io
    rw [truncate_eq _ _ h.range hsize] at hrun
    obtain ⟨hleft, ht⟩ := hc.inv hrun
    have hend := ht.sameEnd hc hdi hdone (by omega) hge
    have hok := ht.cutOk hc hdi hdone hend hge
    have hkeep := fun hd => hc.kept hd (hleft hd)
    have hown : TailOwn fs (truncateSize s.dev.inode newISize)
        (treeMap fs s.dev.ebs s.dev.inode.iList) := by
      by_contra hshared
      unfold treeMap at hshared
      rw [hrecs] at hshared
      obtain ⟨t', herr⟩ := hc.shared he.2 hok hkeep hshared
      rw [herr] at hrun
      cases hrun
    refine ⟨fun ks' hread' => ?_, fun hd => ?_, hown, fun v h1 h2 => ?_⟩
    · rw [hread] at hread'
      rw [← Option.some.inj hread', ← hdi]
      exact hok
    · rw [hrecs]
      exact hkeep (hdi ▸ hd)
    · rw [treeMap, hrecs]
      refine recsMap_eq_none.mpr fun r hr hcov => ?_
      have := (hend r hr v hcov).mp h1
      omega
  · intro hfits cow extend
    have hok := hfits.walk ks hread
    have hkeep := hfits.kept
    have hown := hfits.own
    unfold treeMap at hown
    rw [hrecs] at hkeep hown
    rw [← hdi] at hok hkeep
    obtain ⟨t, hrun, ht⟩ := hc.run he.2 cow hok hkeep hown
    refine ⟨t, (truncate_eq cow extend h.range hsize).trans hrun, ht.done hc hdi hok hkeep ?_⟩
    intro r hr v hcov
    have hend := (hc.root.recs_spaced.mem_bounds r hr).2.2
    have hlt := hcov.2
    constructor
    · intro hC
      by_contra hv
      have hnone := hfits.behind v hC (by omega)
      rw [treeMap, hrecs] at hnone
      exact recsMap_eq_none.mp hnone r hr hcov
    · exact hge v (by omega)

/-- Where nothing of a tree with blocks is left, the function fails, after it has given
    all of it back. -/
theorem truncate_gone (h : TruncateReady fs s) (hsize : newISize < s.dev.inode.iSize)
    (hd : s.dev.inode.iList.lTreeDepth ≠ 0) (hall : ∀ r ∈ diskRecs s.dev.ebs s.dev.inode.iList,
      newSizeInClusters fs (truncateSize s.dev.inode newISize) ≤ r.eCpos)
    (cow : Dinode → Nat → M Dinode) (extend : Nat → M Unit) :
    ∃ t, truncate fs cow extend newISize s = some (.error .badBlkno, t) := by
  obtain ⟨ks, hread, hw⟩ := h.tree
  have hc := h.cuttable hread hw
  have hdi := orphanCleared_iList s.dev.inode
  rw [hc.diskRecs_eq hdi] at hall
  have hnode := hc.root.node (hdi ▸ hd)
  obtain ⟨t, ht⟩ := hc.extentIterateInode_bad (hdi ▸ hd)
    (cut_emptied hnode (le_refl _) (cut_empty hnode hall))
  refine ⟨t, ?_⟩
  rw [truncate_eq cow extend h.range hsize, truncateTo, if_neg hc.extents, zeroTailAndTruncate,
    bind_error (bind_error ht _)]

/-! ### Two runs -/

/-- A file with the two leaves: it ends behind the unwritten record of the second. -/
def cutSt : St :=
  smallSt twoLeaves { twoLeafInode with iSize := 626688, iClusters := 31 } []

theorem cutSt_ready : TruncateReady smallFs cutSt := by
  refine ⟨twoLeaf_wf.congr rfl rfl, ?_, by decide, by decide, ⟨by decide, by decide, by decide⟩,
    by decide, by decide, rfl⟩
  intro b _ eb heb
  have hslot : ∀ eb ∈ twoLeaves, eb.hSuballocSlot = 0 := by decide
  have heb' : ebsOf twoLeaves b = some eb := heb
  show (eb.hSuballocSlot == 0 && (ebsOf twoLeaves b).isSome) = true
  rw [hslot eb (mem_of_find?_eq_some heb'), heb']
  rfl

/-- Cut inside the first leaf: the second one goes, and the tree is right. -/
theorem truncate_done_iff_firstLeaf : TruncateReady smallFs cutSt ∧
    82020 < cutSt.dev.inode.iSize ∧ TruncateFits smallFs cutSt 82020 ∧
    ∃ t, truncate smallFs noCow (fun _ => pure ()) 82020 cutSt = some (.ok (), t) ∧
      TruncateDone smallFs cutSt 82020 t := by
  have hfits : TruncateFits smallFs cutSt 82020 := by
    refine ⟨fun ks hread => ?_, fun _ => by decide, ?_, fun v h1 h2 => ?_⟩
    · rw [← Option.some.inj (rfl.symm.trans hread)]
      decide
    · intro _ x hx
      have hmap : treeMap smallFs cutSt.dev.ebs cutSt.dev.inode.iList
          (truncateSize cutSt.dev.inode 82020 / smallFs.fsClustersize) = some (960, 0) := by
        decide
      rw [← Option.some.inj (hmap.symm.trans hx)]
      decide
    · have hceil : clusterCeil smallFs 82020 = 21 := by decide
      have hsize : newSizeInClusters smallFs (truncateSize cutSt.dev.inode 82020) = 21 := by decide
      omega
  exact ⟨cutSt_ready, by decide, hfits, (truncate_done_iff cutSt_ready (by decide)).mpr hfits _ _⟩

/-- Cut to nothing: the inode says that its tree has blocks, and its last one is looked
    for in block 0. -/
theorem truncate_zero_fails : TruncateReady smallFs cutSt ∧ 0 < cutSt.dev.inode.iSize ∧
    ∀ cow extend, ∃ t, truncate smallFs cow extend 0 cutSt = some (.error .badBlkno, t) :=
  ⟨cutSt_ready, by decide, truncate_gone cutSt_ready (by decide) (by decide) (by decide)⟩

end Ocfs2Tools
