import Ocfs2Tools.ExtentTree.Added
import Ocfs2Tools.ExtentTree.Shape

/-!
# The extent map: `ocfs2_get_clusters`

A lookup walks to the leaf for a cluster and searches it. If the cluster is not
there it is a hole, and the caller is told how long: up to the next record of the
leaf, or to the first record of the next leaf in the chain, or without end. The record of an
empty branch counts there like any other, although it maps nothing.
-/

namespace Ocfs2Tools

open List Prog ExtentRec

variable {fs : Filesys}
  {r : ExtentRec} {i lo hi v n d : Nat} {pre post recs : List ExtentRec} {el : ExtentList}
  {s : St} {di : Dinode} {buf : Option ExtentBlock} {ks : List Node}

/-! ### The functions of `extent_map.c` -/

/-- `ocfs2_search_for_hole_index`. -/
def searchForHoleIndex (el : ExtentList) (vCluster : Nat) : Nat :=
  el.live.findIdx fun r => decide (vCluster < r.eCpos)

/-- The end of `ocfs2_figure_hole_clusters`, from `no_more_extents` on. -/
def holeClusters (el : ExtentList) (i vCluster : Nat) : Nat :=
  if i = el.lNextFreeRec then subW 32 uint32Max vCluster
  else subW 32 (el.recAt i).eCpos vCluster

/-- `ocfs2_figure_hole_clusters`; `ebBuf` is the leaf block of `el`, if it is in one. -/
def figureHoleClusters (fs : Filesys) (el : ExtentList) (ebBuf : Option ExtentBlock)
    (vCluster : Nat) : M Nat :=
  match ebBuf with
  | some eb =>
    if searchForHoleIndex el vCluster = el.lNextFreeRec ∧ eb.hNextLeafBlk ≠ 0 then do
      let nextEb ← readExtentBlock fs eb.hNextLeafBlk
      let i := searchForHoleIndex nextEb.hList vCluster
      if 0 < i ∧ (1 < i ∨ recClusters nextEb.hList.lTreeDepth (nextEb.hList.recAt 0) ≠ 0) then
        fail .corruptExtentBlock
      else pure (holeClusters nextEb.hList i vCluster)
    else pure (holeClusters el (searchForHoleIndex el vCluster) vCluster)
  | none => pure (holeClusters el (searchForHoleIndex el vCluster) vCluster)

/-- The three values `ocfs2_get_clusters` stores. -/
structure Clusters where
  pCluster : Nat
  numClusters : Nat
  extentFlags : Nat
deriving DecidableEq, Repr

/-- The leaf list a lookup searches, with its block when it is in one. -/
def lookupLeaf (fs : Filesys) (di : Dinode) (vCluster : Nat) :
    M (ExtentList × Option ExtentBlock) :=
  if di.iList.lTreeDepth ≠ 0 then do
    let eb ← treeFindLeaf fs di.iList vCluster
    if eb.hList.lTreeDepth ≠ 0 then fail .corruptExtentBlock
    else pure (eb.hList, some eb)
  else pure (di.iList, none)

/-- `ocfs2_get_clusters`. -/
def getClusters (fs : Filesys) (di : Dinode) (vCluster : Nat) : M Clusters := do
  let (el, ebBuf) ← lookupLeaf fs di vCluster
  match searchExtentList el vCluster with
  | none =>
    -- a hole: canned values for the callers
    let numClusters ← figureHoleClusters fs el ebBuf vCluster
    pure ⟨0, numClusters, 0⟩
  | some i =>
    let r := el.recAt i
    check (decide (r.eCpos ≤ vCluster))
    if r.eBlkno = 0 then fail .badBlkno
    else
      let coff := subW 32 vCluster r.eCpos
      pure ⟨addW 32 (blocksToClusters fs r.eBlkno) coff,
        subW 32 (recClusters el.lTreeDepth r) coff, r.eFlags⟩

section Keeps

variable {I : St → Prop}

theorem figureHoleClusters_keeps (fs : Filesys) (el : ExtentList) (ebBuf : Option ExtentBlock)
    (v : Nat) : Prog.Keeps I (figureHoleClusters fs el ebBuf v) := by
  cases ebBuf with
  | none => exact keeps_pure _
  | some eb =>
    refine keeps_ite (keeps_bind (readExtentBlock_keeps fs _) fun next => ?_) (keeps_pure _)
    exact keeps_ite (keeps_fail _) (keeps_pure _)

theorem lookupLeaf_keeps (fs : Filesys) (di : Dinode) (v : Nat) :
    Prog.Keeps I (lookupLeaf fs di v) := by
  refine keeps_ite (keeps_bind (treeFindLeaf_keeps fs _ _) fun eb => ?_) (keeps_pure _)
  exact keeps_ite (keeps_fail _) (keeps_pure _)

theorem getClusters_keeps (fs : Filesys) (di : Dinode) (v : Nat) :
    Prog.Keeps I (getClusters fs di v) := by
  refine keeps_bind (lookupLeaf_keeps fs di v) fun leaf => ?_
  obtain ⟨el, ebBuf⟩ := leaf
  dsimp only
  cases searchExtentList el v with
  | none => exact keeps_bind (figureHoleClusters_keeps fs _ _ v) fun _ => keeps_pure _
  | some i =>
    refine keeps_bind (keeps_check _) fun _ => ?_
    exact keeps_ite (keeps_fail _) (keeps_pure _)

end Keeps

/-! ### Searching one leaf -/

section Leaf

variable {lo hi v : Nat} {el : ExtentList}

variable (h : LeafOk fs lo hi el)

include h

theorem LeafOk.range_sum (hhi : hi ≤ uint32Max) (hr : r ∈ el.nonempty) :
    addW 32 r.eCpos (recClusters el.lTreeDepth r) = r.eCpos + r.eLeafClusters := by
  have := (h.nonempty_spaced.mem_bounds r hr).2.2
  rw [h.depth, recClusters_zero, addW_32_eq]
  unfold uint32Max at hhi
  omega

theorem LeafOk.search_some (hhi : hi ≤ uint32Max) (hi' : searchExtentList el v = some i) :
    el.recAt i ∈ el.nonempty ∧ Covers eCpos eLeafClusters (el.recAt i) v := by
  obtain ⟨hlt, hp, -⟩ := findIdx?_eq_some_iff_getElem.mp hi'
  have hrec : el.recAt i = el.live[i] := ExtentList.recAt_live (getElem?_eq_getElem hlt)
  simp only [Bool.and_eq_true, decide_eq_true_eq] at hp
  have hmem : el.live[i] ∈ el.nonempty := by
    refine mem_filter.mpr ⟨getElem_mem hlt, ?_⟩
    by_contra hc
    have h0 : el.live[i].eLeafClusters = 0 := by simpa [isEmptyExtent] using hc
    have hz : addW 32 el.live[i].eCpos 0 ≤ el.live[i].eCpos := Nat.mod_le _ _
    rw [h.depth, recClusters_zero, h0] at hp
    omega
  rw [h.range_sum hhi hmem] at hp
  rw [hrec]
  exact ⟨hmem, hp⟩

theorem LeafOk.search_none (hhi : hi ≤ uint32Max) (hn : searchExtentList el v = none) :
    ∀ r ∈ el.nonempty, ¬ Covers eCpos eLeafClusters r v := by
  intro r hr hc
  have hlive := (mem_filter.mp hr).1
  have := findIdx?_eq_none_iff.mp hn r hlive
  rw [h.range_sum hhi hr] at this
  have h2 : decide (r.eCpos ≤ v) && decide (v < r.eCpos + r.eLeafClusters) := by
    simp [hc.1, hc.2]
  rw [this] at h2
  cases h2

theorem LeafOk.hole_end (hall : ∀ r ∈ el.nonempty, r.eCpos ≤ v) :
    searchForHoleIndex el v = el.lNextFreeRec := by
  rw [← ExtentList.live_length h.le]
  refine findIdx_eq_length.mpr fun r hr => ?_
  simp only [decide_eq_false_iff_not, not_lt]
  rcases live_eq_dropEmpty el.live with hd | hd
  · rw [hd, ← h.nonempty_eq] at hr
    exact hall r hr
  · rw [hd] at hr
    rcases mem_cons.mp hr with rfl | hr
    · exact Nat.zero_le _
    · rw [← h.nonempty_eq] at hr
      exact hall r hr

theorem LeafOk.hole_next (hsplit : el.nonempty = pre ++ r :: post)
    (hpre : ∀ x ∈ pre, x.eCpos ≤ v) (hr : v < r.eCpos) :
    searchForHoleIndex el v < el.lNextFreeRec ∧ el.recAt (searchForHoleIndex el v) = r ∧
      (pre = [] → searchForHoleIndex el v = 0 ∨
        searchForHoleIndex el v = 1 ∧ el.recAt 0 = ExtentRec.zero) := by
  have hfind : ∀ pre : List ExtentRec, (∀ x ∈ pre, x.eCpos ≤ v) →
      (pre ++ r :: post).findIdx (fun r => decide (v < r.eCpos)) = pre.length := by
    intro pre hpre
    induction pre with
    | nil => simp [findIdx_cons, hr]
    | cons x xs ih =>
      have hx : ¬ v < x.eCpos := not_lt.mpr (hpre x (by simp))
      rw [cons_append, findIdx_cons]
      simp [hx, ih fun y hy => hpre y (mem_cons_of_mem _ hy)]
  -- in front of the records there is nothing or an empty one
  obtain ⟨z, hd, hz⟩ : ∃ z, el.live = (z ++ pre) ++ r :: post ∧
      (z = [] ∨ z = [ExtentRec.zero]) := by
    rw [h.nonempty_eq] at hsplit
    rcases live_eq_dropEmpty el.live with hd | hd
    · exact ⟨[], hd.trans hsplit, .inl rfl⟩
    · exact ⟨[ExtentRec.zero], by rw [hd, hsplit]; rfl, .inr rfl⟩
  have hidx : searchForHoleIndex el v = (z ++ pre).length := by
    rw [searchForHoleIndex, hd]
    refine hfind _ (forall_mem_append.mpr ⟨?_, hpre⟩)
    rcases hz with rfl | rfl
    · exact nofun
    · exact forall_mem_singleton.mpr (Nat.zero_le _)
  refine ⟨?_, ?_, ?_⟩
  · rw [← ExtentList.live_length h.le, hd, hidx]
    simp
  · apply ExtentList.recAt_live
    rw [hidx, hd]
    simp
  · rintro rfl
    rcases hz with rfl | rfl
    · exact .inl hidx
    · exact .inr ⟨hidx, ExtentList.recAt_live (by rw [hd]; rfl)⟩

end Leaf

/-! ### Holes -/

/-- `n` is the distance from `v` to the next cluster the map has, or to `UINT32_MAX`
    if it has none from `v` on. -/
def HoleLength (map : Nat → Option (Nat × Nat)) (v n : Nat) : Prop :=
  (∀ w, v ≤ w → w < v + n → map w = none) ∧
    ((map (v + n)).isSome ∨ (∀ w, v ≤ w → map w = none) ∧ v + n = uint32Max)

theorem holeLength_next (hs : Spaced eCpos eLeafClusters lo (pre ++ r :: post) hi)
    (hpre : ∀ x ∈ pre, x.eCpos + x.eLeafClusters ≤ v) (hr : v < r.eCpos) :
    HoleLength (recsMap fs (pre ++ r :: post)) v (r.eCpos - v) := by
  have hsum : v + (r.eCpos - v) = r.eCpos := by omega
  obtain ⟨m, -, -, hpos, hpost⟩ := spaced_append.mp hs
  refine ⟨fun w h1 h2 => recsMap_eq_none.mpr fun x hx hc => ?_, .inl ?_⟩
  · have hw1 := hc.1
    have hw2 := hc.2
    rcases mem_append.mp hx with hx | hx
    · have := hpre x hx
      omega
    · rcases mem_cons.mp hx with rfl | hx
      · omega
      · have := (hpost.mem_bounds x hx).1
        omega
  · rw [hsum, recsMap_of_mem hs (mem_append_right _ (mem_cons_self ..))
      ⟨le_refl _, Nat.lt_add_of_pos_right hpos⟩]
    rfl

theorem recsMap_none_behind (hall : ∀ x ∈ recs, x.eCpos + x.eLeafClusters ≤ v) :
    ∀ w, v ≤ w → recsMap fs recs w = none := by
  intro w hw
  refine recsMap_eq_none.mpr fun x hx hc => ?_
  have h1 := hall x hx
  have h2 := hc.2
  omega

theorem holeLength_end (hv : v ≤ uint32Max) (hall : ∀ x ∈ recs, x.eCpos + x.eLeafClusters ≤ v) :
    HoleLength (recsMap fs recs) v (uint32Max - v) :=
  have hnone := recsMap_none_behind hall
  ⟨fun w hw _ => hnone w hw, .inr ⟨hnone, by omega⟩⟩

theorem LeafOk.holeClusters_next (h : LeafOk fs lo hi el) (hhi : hi ≤ uint32Max)
    (hsplit : el.nonempty = pre ++ r :: post) (hpre : ∀ x ∈ pre, x.eCpos ≤ v) (hr : v < r.eCpos) :
    holeClusters el (searchForHoleIndex el v) v = r.eCpos - v := by
  obtain ⟨hlt, hrec, -⟩ := h.hole_next hsplit hpre hr
  have hb := (h.nonempty_spaced.mem_bounds r (by rw [hsplit]; simp)).2.2
  rw [holeClusters, if_neg (by omega), hrec, subW_32_eq (by omega)]
  unfold uint32Max at hhi
  omega

theorem LeafOk.holeClusters_end (h : LeafOk fs lo hi el) (hv : v ≤ uint32Max)
    (hall : ∀ r ∈ el.nonempty, r.eCpos ≤ v) :
    holeClusters el (searchForHoleIndex el v) v = uint32Max - v := by
  rw [holeClusters, if_pos (h.hole_end hall), subW_32_eq hv (by decide)]

theorem figureHoleClusters_nextLeaf {eb next : ExtentBlock}
    (hidx : searchForHoleIndex el v = el.lNextFreeRec) (hblk : eb.hNextLeafBlk = next.hBlkno)
    (hrange : outOfRange fs next.hBlkno = false) (hread : s.dev.ebs next.hBlkno = some next)
    (hn : LeafOk fs lo hi next.hList) (hhi : hi ≤ uint32Max)
    (hsplit : next.hList.nonempty = r :: post) (hr : v < r.eCpos) :
    figureHoleClusters fs el (some eb) v s = some (.ok (r.eCpos - v), s) := by
  have hne : eb.hNextLeafBlk ≠ 0 := ne_zero_of_inRange (hblk ▸ hrange)
  rw [← nil_append (r :: post)] at hsplit
  obtain ⟨-, -, hfirst⟩ := hn.hole_next hsplit (nofun) hr
  have hok : ¬ (0 < searchForHoleIndex next.hList v ∧ (1 < searchForHoleIndex next.hList v ∨
      recClusters next.hList.lTreeDepth (next.hList.recAt 0) ≠ 0)) := by
    rcases hfirst rfl with h0 | ⟨h1, hz⟩
    · omega
    · rw [h1, hz, hn.depth]
      decide
  rw [hblk] at hne
  simp only [figureHoleClusters, hidx, hblk, hne, ne_eq, not_false_eq_true, and_self, if_true,
    bind_ok (readExtentBlock_ok hrange hread hn.le), hok, if_false, pure_run,
    hn.holeClusters_next hhi hsplit (nofun) hr]

/-! ### The lookup -/

theorem getClusters_hit (hleaf : lookupLeaf fs di v s = some (.ok (el, buf), s))
    (h : LeafOk fs lo hi el) (hhi : hi ≤ uint32Max) (hi' : searchExtentList el v = some i) :
    getClusters fs di v s = some (.ok ⟨(el.recAt i).eBlkno / fs.bpc + (v - (el.recAt i).eCpos),
      (el.recAt i).eCpos + (el.recAt i).eLeafClusters - v, (el.recAt i).eFlags⟩, s) := by
  obtain ⟨hmem, hc1, hc2⟩ := h.search_some hhi hi'
  have hok := h.recs _ (h.nonempty_eq ▸ hmem)
  have hb := (h.nonempty_spaced.mem_bounds _ hmem).2.2
  have hbound := hok.bound
  have hblk : ¬ (el.recAt i).eBlkno / fs.bpc > uint32Max := by omega
  unfold uint32Max at hhi hbound
  simp only [getClusters, bind_ok hleaf, hi', bind_ok (check_ok (decide_eq_true hc1) s),
    hok.blkno_ne, if_false, pure_run, blocksToClusters, hblk, h.depth, recClusters_zero]
  rw [subW_32_eq hc1 (by omega), addW_32_eq (by omega), subW_32_eq (by omega) (by omega)]
  have hlen : (el.recAt i).eLeafClusters - (v - (el.recAt i).eCpos) =
      (el.recAt i).eCpos + (el.recAt i).eLeafClusters - v := by omega
  rw [hlen]

theorem getClusters_miss (hleaf : lookupLeaf fs di v s = some (.ok (el, buf), s))
    (hn : searchExtentList el v = none) (hhole : figureHoleClusters fs el buf v s =
      some (.ok n, s)) :
    getClusters fs di v s = some (.ok ⟨0, n, 0⟩, s) := by
  simp only [getClusters, bind_ok hleaf, hn, bind_ok hhole, pure_run]

/-- What a lookup of `v` has to return for a file with the leaf records `recs`. -/
def LookupOk (fs : Filesys) (recs : List ExtentRec) (v : Nat) (c : Clusters) : Prop :=
  match recsMap fs recs v with
  | some (blkno, flags) =>
    clustersToBlocks fs c.pCluster = blkno ∧ c.extentFlags = flags ∧
      ∃ r ∈ recs, Covers eCpos eLeafClusters r v ∧ v + c.numClusters = r.eCpos + r.eLeafClusters
  | none => c.pCluster = 0 ∧ c.extentFlags = 0 ∧ HoleLength (recsMap fs recs) v c.numClusters

theorem lookupOk_of_covers (hs : Spaced eCpos eLeafClusters lo recs hi)
    (hr : r ∈ recs) (hok : RecOk fs r) (hc : Covers eCpos eLeafClusters r v) :
    LookupOk fs recs v ⟨r.eBlkno / fs.bpc + (v - r.eCpos), r.eCpos + r.eLeafClusters - v,
      r.eFlags⟩ := by
  have hblk : r.eBlkno / fs.bpc * fs.bpc = r.eBlkno := Nat.div_mul_cancel hok.aligned
  rw [LookupOk, recsMap_of_mem hs hr hc]
  refine ⟨?_, rfl, r, hr, hc, ?_⟩
  · rw [clustersToBlocks, Nat.add_mul, hblk, clustersToBlocks]
  · have := hc.2
    show v + (r.eCpos + r.eLeafClusters - v) = _
    omega

theorem lookupOk_hole_iff (hn : ∀ r ∈ recs, ¬ Covers eCpos eLeafClusters r v) :
    LookupOk fs recs v ⟨0, n, 0⟩ ↔ HoleLength (recsMap fs recs) v n := by
  rw [LookupOk, recsMap_eq_none.mpr hn]
  exact ⟨fun h => h.2.2, fun h => ⟨rfl, rfl, h⟩⟩

theorem getClusters_inline (h0 : di.iList.lTreeDepth = 0) (h : LeafOk fs 0 uint32Max di.iList)
    (hv : v ≤ uint32Max) :
    ∃ c, getClusters fs di v s = some (.ok c, s) ∧ LookupOk fs di.iList.nonempty v c := by
  have hleaf : lookupLeaf fs di v s = some (.ok (di.iList, none), s) := by
    simp [lookupLeaf, h0]
  have hle := le_refl uint32Max
  cases hsearch : searchExtentList di.iList v with
  | some i =>
    obtain ⟨hmem, hc⟩ := h.search_some hle hsearch
    exact ⟨_, getClusters_hit hleaf h hle hsearch,
      lookupOk_of_covers h.nonempty_spaced hmem (h.recs _ (h.nonempty_eq ▸ hmem)) hc⟩
  | none =>
    have hn := h.search_none hle hsearch
    refine ⟨_, getClusters_miss hleaf hsearch (pure_run _ s), (lookupOk_hole_iff hn).mpr ?_⟩
    rcases h.nonempty_spaced.split_at hn with hall | ⟨pre, r, post, hsplit, hpre, hr⟩
    · rw [h.holeClusters_end hv fun r hr => Nat.le_of_add_right_le (hall r hr)]
      exact holeLength_end hv hall
    · rw [h.holeClusters_next hle hsplit (fun x hx => Nat.le_of_add_right_le (hpre x hx)) hr,
        hsplit]
      exact holeLength_next (hsplit ▸ h.nonempty_spaced) hpre hr

theorem lookupLeaf_tree (hd : di.iList.lTreeDepth = d + 1) (hlt : d + 1 < maxPathDepth)
    (hw : Guides v (d + 1) di.iList ks) (hread : readKids s.dev.ebs (d + 1) di.iList = some ks)
    (hrange : ∀ b ∈ treeBlocks (d + 1) ks, outOfRange fs b = false) :
    ∃ left leaf rest, treeLeaves (d + 1) ks = left ++ leaf :: rest ∧
      lookupLeaf fs di v s = some (.ok (leaf.hList, some leaf), s) ∧
      (∀ eb ∈ left, ∀ x ∈ eb.hList.nonempty, x.eCpos + x.eLeafClusters ≤ v) ∧
      (∀ eb ∈ rest, ∀ x ∈ eb.hList.nonempty, v < x.eCpos) := by
  obtain ⟨left, leaf, rest, hleaves, hroute, hdepth, hleft, hright⟩ := route_split hw
  refine ⟨left, leaf, rest, hleaves, ?_, hleft, hright⟩
  have hpath : findPath fs di.iList v s = some (.ok (route (d + 1) di.iList ks v), s) :=
    findPathLoop_eq hw hread hrange (Nat.le_pred_of_lt hlt)
  have hfind : treeFindLeaf fs di.iList v s = some (.ok leaf, s) := by
    simp only [treeFindLeaf, newPath, hd, Nat.zero_lt_succ, decide_true, hlt,
      bind_ok (check_run_true s), bind_ok hpath, Nat.add_sub_cancel, hroute,
      pure_run]
  simp [lookupLeaf, hd, bind_ok hfind, hdepth]

/-- What the lookup does once it has its leaf, when `rest` are the leaves behind it: whatever it
    answers for a hole that goes on behind the leaf is right just when `Q`. -/
theorem getClusters_leaf {leaf : ExtentBlock} {L R : List ExtentRec} {lo' hi' : Nat} {Q : Prop}
    (hlook : lookupLeaf fs di v s = some (.ok (leaf.hList, some leaf), s))
    (hok : LeafOk fs lo hi leaf.hList) (hhi : hi ≤ uint32Max)
    (hsp : Spaced eCpos eLeafClusters lo' (L ++ (leaf.hList.nonempty ++ R)) hi')
    (hL : ∀ x ∈ L, x.eCpos + x.eLeafClusters ≤ v) (hR : ∀ x ∈ R, v < x.eCpos)
    (hQ : (∃ w, v ≤ w ∧ (recsMap fs (L ++ (leaf.hList.nonempty ++ R)) w).isSome) → Q)
    (hbehind : (∀ x ∈ leaf.hList.nonempty, x.eCpos + x.eLeafClusters ≤ v) →
      ∃ n, figureHoleClusters fs leaf.hList (some leaf) v s = some (.ok n, s) ∧
        (HoleLength (recsMap fs (L ++ (leaf.hList.nonempty ++ R))) v n ↔ Q)) :
    ∃ c, getClusters fs di v s = some (.ok c, s) ∧
      (LookupOk fs (L ++ (leaf.hList.nonempty ++ R)) v c ↔ Q) := by
  cases hsearch : searchExtentList leaf.hList v with
  | some i =>
    obtain ⟨hmem, hc⟩ := hok.search_some hhi hsearch
    have hmem' : leaf.hList.recAt i ∈ L ++ (leaf.hList.nonempty ++ R) :=
      mem_append_right _ (mem_append_left _ hmem)
    refine ⟨_, getClusters_hit hlook hok hhi hsearch, iff_of_true (lookupOk_of_covers hsp hmem'
      (hok.recs _ (hok.nonempty_eq ▸ hmem)) hc) (hQ ⟨v, le_refl v, ?_⟩)⟩
    rw [recsMap_of_mem hsp hmem' hc]
    rfl
  | none =>
    have hn := hok.search_none hhi hsearch
    have hnone : ∀ r ∈ L ++ (leaf.hList.nonempty ++ R), ¬ Covers eCpos eLeafClusters r v :=
      forall_mem_append.mpr ⟨fun r hr hc => absurd (hL r hr) (not_le.mpr hc.2),
        forall_mem_append.mpr ⟨hn, fun r hr hc => absurd (hR r hr) (not_lt.mpr hc.1)⟩⟩
    rcases hok.nonempty_spaced.split_at hn with hall | ⟨pre, r, post, hsplit, hpre, hr⟩
    · obtain ⟨n, hfig, hlen⟩ := hbehind hall
      exact ⟨_, getClusters_miss hlook hsearch hfig, (lookupOk_hole_iff hnone).trans hlen⟩
    · -- the hole ends in the leaf
      have hpre' : ∀ x ∈ pre, x.eCpos ≤ v := fun x hx => Nat.le_of_add_right_le (hpre x hx)
      have hfig : figureHoleClusters fs leaf.hList (some leaf) v s =
          some (.ok (r.eCpos - v), s) := by
        obtain ⟨hlt, -, -⟩ := hok.hole_next hsplit hpre' hr
        have hne : ¬ searchForHoleIndex leaf.hList v = leaf.hList.lNextFreeRec := by omega
        simp [figureHoleClusters, hne, hok.holeClusters_next hhi hsplit hpre' hr]
      have hre : L ++ (leaf.hList.nonempty ++ R) = (L ++ pre) ++ r :: (post ++ R) := by
        simp [hsplit]
      rw [hre] at hsp hnone hQ ⊢
      have hlen := @holeLength_next fs _ _ _ _ _ _ hsp (forall_mem_append.mpr ⟨hL, hpre⟩) hr
      refine ⟨_, getClusters_miss hlook hsearch hfig,
        iff_of_true ((lookupOk_hole_iff hnone).mpr hlen) (hQ ⟨r.eCpos, hr.le, ?_⟩)⟩
      have hpos := (hsp.mem_bounds r (by simp)).2.1
      rw [recsMap_of_mem hsp (by simp) ⟨le_refl _, Nat.lt_add_of_pos_right hpos⟩]
      rfl

/-- A hole that goes on behind its leaf ends at the first record of the next one. -/
theorem figureHoleClusters_rest {leaf next : ExtentBlock} {rest : List ExtentBlock}
    {L : List ExtentRec} {lo' hi' : Nat} (hok : LeafOk fs lo hi leaf.hList)
    (hL : ∀ x ∈ L, x.eCpos + x.eLeafClusters ≤ v)
    (hall : ∀ x ∈ leaf.hList.nonempty, x.eCpos + x.eLeafClusters ≤ v)
    (hnext : leaf.hNextLeafBlk = next.hBlkno) (hrange : outOfRange fs next.hBlkno = false)
    (hdev : s.dev.ebs next.hBlkno = some next) (hok' : LeafOk fs i n next.hList)
    (hn : n ≤ uint32Max) (hne : dropEmpty next.hList.live ≠ [])
    (hR : ∀ x ∈ next.hList.nonempty, v < x.eCpos)
    (hsp : Spaced eCpos eLeafClusters lo' (L ++ (leaf.hList.nonempty ++
      (next :: rest).flatMap fun eb => eb.hList.nonempty)) hi') :
    ∃ r ∈ L ++ (leaf.hList.nonempty ++ (next :: rest).flatMap fun eb => eb.hList.nonempty),
      v < r.eCpos ∧
      figureHoleClusters fs leaf.hList (some leaf) v s = some (.ok (r.eCpos - v), s) ∧
      HoleLength (recsMap fs (L ++ (leaf.hList.nonempty ++
        (next :: rest).flatMap fun eb => eb.hList.nonempty))) v (r.eCpos - v) := by
  obtain ⟨r, post, hsplit⟩ := exists_cons_of_ne_nil (hok'.nonempty_eq ▸ hne)
  have hr : v < r.eCpos := hR r (by rw [hsplit]; simp)
  have hend := hok.hole_end fun r hr => Nat.le_of_add_right_le (hall r hr)
  have hre : L ++ (leaf.hList.nonempty ++ (next :: rest).flatMap fun eb => eb.hList.nonempty) =
      (L ++ leaf.hList.nonempty) ++ r :: (post ++ rest.flatMap fun eb => eb.hList.nonempty) := by
    simp [hsplit]
  rw [hre] at hsp ⊢
  exact ⟨r, by simp, hr, figureHoleClusters_nextLeaf hend hnext hrange hdev hok' hn hsplit hr,
    holeLength_next hsp (forall_mem_append.mpr ⟨hL, hall⟩) hr⟩

theorem treeRecs_split {left rest : List ExtentBlock} {leaf : ExtentBlock}
    (hleaves : treeLeaves (d + 1) ks = left ++ leaf :: rest) :
    treeRecs (d + 1) el ks = left.flatMap (fun eb => eb.hList.nonempty) ++
      (leaf.hList.nonempty ++ rest.flatMap fun eb => eb.hList.nonempty) := by
  rw [treeRecs_eq_leaves, hleaves, flatMap_append, flatMap_cons]

theorem getClusters_tree (hd : di.iList.lTreeDepth = d + 1) (hw : WfRoot fs di ks)
    (hread : readKids s.dev.ebs (d + 1) di.iList = some ks) (hv : v ≤ uint32Max) :
    ∃ c, getClusters fs di v s = some (.ok c, s) ∧
      LookupOk fs (treeRecs (d + 1) di.iList ks) v c := by
  have hlist := hw.node (by omega)
  have hchain := hw.chain
  have hrange := hw.range
  have hlt := hw.depth_lt
  rw [hd] at hlist hchain hrange hlt
  obtain ⟨left, leaf, rest, hleaves, hlook, hleft, hright⟩ :=
    lookupLeaf_tree hd hlt (hlist.guides (le_refl _) (Nat.zero_le v)) hread hrange
  rw [hleaves] at hchain
  obtain ⟨lo, hi, -, hhi, hok, -⟩ := hlist.leaf_ok leaf (by rw [hleaves]; simp)
  have hsp := hlist.recs_spaced
  rw [treeRecs_split hleaves] at hsp ⊢
  have hL : ∀ x ∈ left.flatMap (fun eb => eb.hList.nonempty), x.eCpos + x.eLeafClusters ≤ v :=
    forall_mem_flatMap.mpr hleft
  have hR : ∀ x ∈ rest.flatMap (fun eb => eb.hList.nonempty), v < x.eCpos :=
    forall_mem_flatMap.mpr hright
  obtain ⟨c, hrun, hc⟩ := getClusters_leaf (Q := True) hlook hok hhi hsp hL hR
      (fun _ => trivial) (by
    intro hall
    cases rest with
    | nil =>
      have hlast : leaf.hNextLeafBlk = 0 := hchain.of_append
      refine ⟨uint32Max - v, ?_, iff_of_true (holeLength_end hv ?_) trivial⟩
      · simp [figureHoleClusters, hlast,
          hok.holeClusters_end hv fun r hr => Nat.le_of_add_right_le (hall r hr)]
      · exact forall_mem_append.mpr ⟨hL, fun x hx => hall x (by simpa using hx)⟩
    | cons next rest =>
      have hmem : next ∈ treeLeaves (d + 1) ks := by rw [hleaves]; simp
      obtain ⟨lo', hi', -, hhi', hok', hne⟩ := hlist.leaf_ok next hmem
      obtain ⟨hdev, hblk⟩ := readKids_leaf hread next hmem
      obtain ⟨r, -, -, hfig, hlen⟩ := figureHoleClusters_rest hok hL hall hchain.of_append.1
        (hrange _ hblk) hdev hok' hhi' hne (hright next mem_cons_self) hsp
      exact ⟨_, hfig, iff_of_true hlen trivial⟩)
  exact ⟨c, hrun, hc.mpr trivial⟩

/-- On a well-formed tree `ocfs2_get_clusters` returns 0 and looks the cluster up in the
    leaf records of the file. -/
theorem getClusters_lookup (hw : WfTree fs s.dev.ebs di) (hv : v ≤ uint32Max) :
    ∃ c, getClusters fs di v s = some (.ok c, s) ∧
      LookupOk fs (diskRecs s.dev.ebs di.iList) v c := by
  obtain ⟨ks, hread, hroot⟩ := hw
  rw [diskRecs, hread]
  cases hd : di.iList.lTreeDepth with
  | zero => exact getClusters_inline hd (hroot.leaf hd) hv
  | succ d => exact getClusters_tree hd hroot (hd ▸ hread) hv

/-! ### An empty branch on the right -/

section Added

variable {e : Nat} {leaf : ExtentBlock}

/-- How long the lookup takes a hole to be that reaches the empty branch at `e`. -/
def holeTo (e v : Nat) : Nat := if v < e then e - v else uint32Max - v

theorem EmptyLeaf.search (h : EmptyLeaf e leaf) : searchExtentList leaf.hList v = none := by
  obtain ⟨r, hlive, -, hr⟩ := h.live
  have hz : addW 32 r.eCpos 0 ≤ r.eCpos := Nat.mod_le _ _
  rw [searchExtentList, hlive, h.depth]
  simp only [recClusters_zero, hr, findIdx?_eq_none_iff, mem_singleton, forall_eq,
    Bool.and_eq_false_iff, decide_eq_false_iff_not]
  omega

theorem EmptyLeaf.hole (h : EmptyLeaf e leaf) (he : e ≤ uint32Max) (hv : v ≤ uint32Max) :
    searchForHoleIndex leaf.hList v = (if v < e then 0 else 1) ∧ leaf.hList.lNextFreeRec = 1 ∧
      (leaf.hList.recAt 0).eLeafClusters = 0 ∧
      holeClusters leaf.hList (searchForHoleIndex leaf.hList v) v = holeTo e v := by
  obtain ⟨r, hlive, hcpos, hr⟩ := h.live
  have hrec : leaf.hList.recAt 0 = r := ExtentList.recAt_live (by rw [hlive]; rfl)
  have hfree : leaf.hList.lNextFreeRec = 1 := by rw [← ExtentList.live_length h.le, hlive]; rfl
  have hidx : searchForHoleIndex leaf.hList v = if v < e then 0 else 1 := by
    rw [searchForHoleIndex, hlive]
    by_cases hlt : v < e <;> simp [findIdx_cons, hcpos, hlt]
  refine ⟨hidx, hfree, hrec ▸ hr, ?_⟩
  rw [holeClusters, hidx, hfree, holeTo]
  by_cases hlt : v < e
  · rw [if_pos hlt, if_neg (by decide), if_pos hlt, hrec, hcpos, subW_32_eq hlt.le]
    unfold uint32Max at he
    omega
  · rw [if_neg hlt, if_pos rfl, if_neg hlt, subW_32_eq hv (by decide)]

/-- The empty leaf ends the chain. -/
theorem EmptyLeaf.figureHoleClusters_last (h : EmptyLeaf e leaf) (he : e ≤ uint32Max)
    (hv : v ≤ uint32Max) (hnext : leaf.hNextLeafBlk = 0) :
    figureHoleClusters fs leaf.hList (some leaf) v s = some (.ok (holeTo e v), s) := by
  simp [figureHoleClusters, hnext, (h.hole he hv).2.2.2]

/-- The empty leaf comes next behind the leaf of the lookup. -/
theorem EmptyLeaf.figureHoleClusters_before {eb : ExtentBlock} (h : EmptyLeaf e leaf)
    (he : e ≤ uint32Max) (hv : v ≤ uint32Max)
    (hidx : searchForHoleIndex el v = el.lNextFreeRec) (hblk : eb.hNextLeafBlk = leaf.hBlkno)
    (hrange : outOfRange fs leaf.hBlkno = false) (hread : s.dev.ebs leaf.hBlkno = some leaf) :
    figureHoleClusters fs el (some eb) v s = some (.ok (holeTo e v), s) := by
  have hne : eb.hNextLeafBlk ≠ 0 := ne_zero_of_inRange (hblk ▸ hrange)
  obtain ⟨hi, -, hr, hhole⟩ := h.hole he hv
  -- the check of the next leaf lets one record without clusters pass
  have hok : ¬ (0 < searchForHoleIndex leaf.hList v ∧ (1 < searchForHoleIndex leaf.hList v ∨
      recClusters leaf.hList.lTreeDepth (leaf.hList.recAt 0) ≠ 0)) := by
    rw [h.depth, recClusters_zero, hr, hi]
    split <;> simp
  rw [hblk] at hne
  simp only [figureHoleClusters, hidx, hblk, hne, ne_eq, not_false_eq_true, and_self, if_true,
    bind_ok (readExtentBlock_ok hrange hread h.le), hok, if_false, pure_run, hhole]

theorem holeTo_iff (he : e ≤ uint32Max) (hv : v ≤ uint32Max)
    (hall : ∀ x ∈ recs, x.eCpos + x.eLeafClusters ≤ v) :
    HoleLength (recsMap fs recs) v (holeTo e v) ↔
      e ≤ v ∨ e = uint32Max ∨ ∃ w, v ≤ w ∧ (recsMap fs recs w).isSome := by
  have hnone := @recsMap_none_behind fs _ _ hall
  constructor
  · rintro ⟨-, hsome | ⟨-, hsum⟩⟩
    · rw [hnone _ (Nat.le_add_right _ _)] at hsome
      cases hsome
    · unfold holeTo at hsum
      split at hsum <;> omega
  · rintro h
    have hlen : holeTo e v = uint32Max - v := by
      rcases h with h | rfl | ⟨w, hw, hsome⟩
      · rw [holeTo, if_neg (by omega)]
      · rw [holeTo, ite_self]
      · rw [hnone w hw] at hsome
        cases hsome
    rw [hlen]
    exact holeLength_end hv hall

/-- **`ocfs2_get_clusters`** on a tree with an empty branch at `e`. -/
theorem getClusters_added (hw : AddedTree fs s.dev.ebs di e) (hv : v ≤ uint32Max) :
    ∃ c, getClusters fs di v s = some (.ok c, s) ∧
      (LookupOk fs (diskRecs s.dev.ebs di.iList) v c ↔ e ≤ v ∨ e = uint32Max ∨
        ∃ w, v ≤ w ∧ (treeMap fs s.dev.ebs di.iList w).isSome) := by
  obtain ⟨ks, hread, hlt, he, hadded, hrange, hchain⟩ := hw
  simp only [treeMap, diskRecs, hread]
  cases hd : di.iList.lTreeDepth with
  | zero =>
    rw [hd] at hadded
    exact hadded.elim
  | succ d =>
    rw [hd] at hread hlt hadded hrange hchain
    obtain ⟨left, leaf, rest, hleaves, hlook, hleft, hright⟩ := lookupLeaf_tree hd hlt
      (hadded.guides (le_refl _) (Nat.zero_le v)) hread hrange
    obtain ⟨strict, eb, hstrict, hempty, hok⟩ := hadded.leaves
    have hsp := hadded.recs_spaced
    rw [treeRecs_split hleaves] at hsp ⊢
    have hL : ∀ x ∈ left.flatMap (fun eb => eb.hList.nonempty), x.eCpos + x.eLeafClusters ≤ v :=
      forall_mem_flatMap.mpr hleft
    have hR : ∀ x ∈ rest.flatMap (fun eb => eb.hList.nonempty), v < x.eCpos :=
      forall_mem_flatMap.mpr hright
    rw [hleaves] at hchain
    have hsplit := hleaves.symm.trans hstrict
    rcases eq_nil_or_concat rest with rfl | ⟨rest, last, rfl⟩
    · -- the walk ends in the empty leaf
      obtain ⟨rfl, hlast⟩ := append_inj' hsplit rfl
      obtain rfl : leaf = eb := by simpa using hlast
      have hall : ∀ x ∈ left.flatMap (fun eb => eb.hList.nonempty) ++ (leaf.hList.nonempty ++
          [].flatMap fun eb : ExtentBlock => eb.hList.nonempty), x.eCpos + x.eLeafClusters ≤ v := by
        simpa [hempty.nonempty_eq] using hL
      refine ⟨_, getClusters_miss hlook hempty.search
        (hempty.figureHoleClusters_last he hv hchain.of_append),
        (lookupOk_hole_iff fun x hx hc => ?_).trans (holeTo_iff he hv hall)⟩
      exact absurd (hall x hx) (not_le.mpr hc.2)
    · rw [concat_eq_append, ← cons_append, ← append_assoc] at hsplit
      obtain ⟨rfl, hlast⟩ := append_inj' hsplit rfl
      obtain rfl : last = eb := by simpa using hlast
      obtain ⟨lo, hi, hhi, hleaf, -⟩ := hok leaf (by simp)
      refine getClusters_leaf hlook hleaf hhi hsp hL hR (fun h => .inr (.inr h)) fun hall => ?_
      cases rest with
      | nil =>
        -- the last leaf that maps something
        obtain ⟨hdev, hblk⟩ := readKids_leaf hread last (by rw [hleaves]; simp)
        refine ⟨_, hempty.figureHoleClusters_before he hv
          (hleaf.hole_end fun r hr => Nat.le_of_add_right_le (hall r hr)) hchain.of_append.1
          (hrange _ hblk) hdev, holeTo_iff he hv (forall_mem_append.mpr ⟨hL, ?_⟩)⟩
        simpa [hempty.nonempty_eq] using hall
      | cons next rest =>
        obtain ⟨hdev, hblk⟩ := readKids_leaf hread next (by rw [hleaves]; simp)
        obtain ⟨lo', hi', hhi', hok', hne⟩ := hok next (by simp)
        obtain ⟨r, hr, hvr, hfig, hlen⟩ := figureHoleClusters_rest hleaf hL hall
          hchain.of_append.1 (hrange _ hblk) hdev hok' hhi' hne (hright next mem_cons_self) hsp
        refine ⟨_, hfig, iff_of_true hlen (.inr (.inr ⟨r.eCpos, hvr.le, ?_⟩))⟩
        rw [recsMap_of_mem hsp hr ⟨le_refl _, Nat.lt_add_of_pos_right (hsp.mem_bounds r hr).2.1⟩]
        rfl

end Added

/-- **`ocfs2_get_clusters`** returns 0. On a tree whose leaves all map something it returns for a
    mapped cluster its physical cluster, its flags and the distance to the end of its leaf
    record, and for another the physical cluster 0 and the distance to the next mapped cluster.
    With an empty branch at `e` it does so just when the branch starts at or before the cluster
    or at `UINT32_MAX`, or the file goes on behind the cluster. -/
theorem getClusters_correct {s : St} {di : Dinode} {v : Nat} (hv : v ≤ uint32Max) :
    (WfTree fs s.dev.ebs di → ∃ c, getClusters fs di v s = some (.ok c, s) ∧
      LookupOk fs (diskRecs s.dev.ebs di.iList) v c) ∧
    ∀ e, AddedTree fs s.dev.ebs di e → ∃ c, getClusters fs di v s = some (.ok c, s) ∧
      (LookupOk fs (diskRecs s.dev.ebs di.iList) v c ↔ e ≤ v ∨ e = uint32Max ∨
        ∃ w, v ≤ w ∧ (treeMap fs s.dev.ebs di.iList w).isSome) :=
  ⟨fun hw => getClusters_lookup hw hv, fun _ hw => getClusters_added hw hv⟩

theorem added_wf : AddedTree smallFs (ebsOf addedLeaves) addedInode 200 := by
  refine ⟨addedLeaves.map (Node.mk · []), rfl, by decide, by decide, ⟨by decide, ?_⟩, by decide,
    by decide⟩
  refine ⟨[⟨0, 100, 0, 0, 10⟩, ⟨100, 100, 0, 0, 11⟩], ⟨200, 0, 0, 0, 12⟩,
    (addedLeaves.take 2).map (Node.mk · []), .mk ⟨0, 12, 0, listOf 0 28 [⟨200, 0, 0, 0, 0⟩]⟩ [],
      rfl, rfl,
    .inl ⟨by decide, ⟨⟨rfl, by decide, _, rfl, rfl, rfl⟩, rfl⟩, by decide⟩⟩

/-- A hole that ends behind the empty record of the next leaf, and one behind the end of the file
    that reaches over an empty branch. -/
theorem getClusters_correct_nextLeaf :
    (∃ c, getClusters smallFs twoLeafInode 60 (smallSt twoLeaves twoLeafInode []) =
        some (.ok c, smallSt twoLeaves twoLeafInode []) ∧
      LookupOk smallFs (diskRecs (ebsOf twoLeaves) twoLeafInode.iList) 60 c) ∧
    ∃ c, getClusters smallFs addedInode 201 (smallSt addedLeaves addedInode []) =
        some (.ok c, smallSt addedLeaves addedInode []) ∧
      LookupOk smallFs (diskRecs (ebsOf addedLeaves) addedInode.iList) 201 c := by
  refine ⟨(getClusters_correct (by decide)).1 twoLeaf_wf, ?_⟩
  obtain ⟨c, hrun, hc⟩ := (getClusters_correct (s := smallSt addedLeaves addedInode [])
    (v := 201) (by decide)).2 200 added_wf
  exact ⟨c, hrun, hc.mpr (.inl (by decide))⟩

/-- Cluster 160 is behind the last record of the file and in front of an empty branch. -/
theorem getClusters_emptyBranch : AddedTree smallFs (ebsOf addedLeaves) addedInode 200 ∧
    getClusters smallFs addedInode 160 (smallSt addedLeaves addedInode []) =
      some (.ok ⟨0, 40, 0⟩, smallSt addedLeaves addedInode []) ∧
    ¬ LookupOk smallFs (diskRecs (ebsOf addedLeaves) addedInode.iList) 160 ⟨0, 40, 0⟩ := by
  refine ⟨added_wf, rfl, fun h => ?_⟩
  rcases ((lookupOk_hole_iff (by decide)).mp h).2 with hsome | ⟨-, hsum⟩
  · revert hsome
    decide
  · revert hsum
    decide

end Ocfs2Tools
