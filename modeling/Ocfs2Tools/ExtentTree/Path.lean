import Ocfs2Tools.ExtentTree.Stored

/-!
# Walking down an extent tree

`ocfs2_find_path` follows, from the root list, the record whose range holds a
cluster, or the last record when there is none. On a well-formed tree the blocks it
collects are those of `route`, a function of the tree alone; `route_split` says
where the leaf it ends in lies among the leaves of the tree.
-/

namespace Ocfs2Tools

open List Prog ExtentRec

variable {fs : Filesys} {el : ExtentList} {r : ExtentRec} {d lo hi cpos : Nat}

/-! ### The functions of `extent_tree.c` -/

/-- The index at which the search loop of `__ocfs2_find_path` stops. -/
def followIndex (el : ExtentList) (cpos : Nat) : Nat :=
  (el.lRecs.take (el.lNextFreeRec - 1)).findIdx fun r =>
    decide (r.eCpos ≤ cpos) && decide (cpos < addW 32 r.eCpos (recClusters el.lTreeDepth r))

/-- `__ocfs2_find_path`, collecting the blocks as `find_path_ins` does. A path has
    room for `OCFS2_MAX_PATH_DEPTH` items: with `n` of them left, a walk that goes on
    leaves the array, which stands for an abort. -/
def findPathLoop (fs : Filesys) : Nat → ExtentList → Nat → M (List ExtentBlock)
  | 0, el, _ => if el.lTreeDepth = 0 then pure [] else abort
  | n + 1, el, cpos =>
    if el.lTreeDepth = 0 then pure []
    else if el.lNextFreeRec = 0 then fail .corruptExtentBlock
    else if (el.recAt (followIndex el cpos)).eBlkno = 0 then fail .corruptExtentBlock
    else do
      let eb ← readExtentBlock fs (el.recAt (followIndex el cpos)).eBlkno
      if eb.hList.lNextFreeRec > eb.hList.lCount then fail .corruptExtentBlock
      else do
        let rest ← findPathLoop fs n eb.hList cpos
        pure (eb :: rest)

/-- `ocfs2_find_path`: the extent blocks of the path, `p_node[1]` first. The root of
    the path is `el` itself. -/
def findPath (fs : Filesys) (el : ExtentList) (cpos : Nat) : M (List ExtentBlock) :=
  findPathLoop fs (maxPathDepth - 1) el cpos

/-- `ocfs2_new_path`: only the depth check is left of it. -/
def newPath (el : ExtentList) : M Unit := check (decide (el.lTreeDepth < maxPathDepth))

/-- `ocfs2_search_extent_list`; `none` is its `-1`. -/
def searchExtentList (el : ExtentList) (vCluster : Nat) : Option Nat :=
  el.live.findIdx? fun r =>
    decide (r.eCpos ≤ vCluster) &&
      decide (vCluster < addW 32 r.eCpos (recClusters el.lTreeDepth r))

/-- `ocfs2_tree_find_leaf`. -/
def treeFindLeaf (fs : Filesys) (el : ExtentList) (cpos : Nat) : M ExtentBlock := do
  check (decide (0 < el.lTreeDepth))
  newPath el
  let nodes ← findPath fs el cpos
  match nodes[el.lTreeDepth - 1]? with
  | some eb => pure eb
  | none => abort

/-! ### Searching changes nothing -/

section Keeps

variable {I : St → Prop}

theorem readExtentBlock_keeps (fs : Filesys) (blkno : Nat) :
    Prog.Keeps I (readExtentBlock fs blkno) := by
  intro s r t hs h
  simp only [readExtentBlock] at h
  split at h
  · simp only [Option.some.injEq, Prod.mk.injEq] at h
    exact h.2 ▸ hs
  · split at h
    · simp only [Option.some.injEq, Prod.mk.injEq] at h
      exact h.2 ▸ hs
    · split at h <;> (simp only [Option.some.injEq, Prod.mk.injEq] at h; exact h.2 ▸ hs)

theorem findPathLoop_keeps (fs : Filesys) (cpos : Nat) (n el) :
    Prog.Keeps I (findPathLoop fs n el cpos) := by
  induction n generalizing el with
  | zero => exact keeps_ite (keeps_pure _) keeps_abort
  | succ n ih =>
    refine keeps_ite (keeps_pure _) ?_
    refine keeps_ite (keeps_fail _) ?_
    refine keeps_ite (keeps_fail _) ?_
    refine keeps_bind (readExtentBlock_keeps fs _) fun eb => ?_
    refine keeps_ite (keeps_fail _) ?_
    exact keeps_bind (ih _) fun _ => keeps_pure _

theorem findPath_keeps (fs : Filesys) (el : ExtentList) (cpos : Nat) :
    Prog.Keeps I (findPath fs el cpos) := findPathLoop_keeps fs cpos _ el

theorem treeFindLeaf_keeps (fs : Filesys) (el : ExtentList) (cpos : Nat) :
    Prog.Keeps I (treeFindLeaf fs el cpos) := by
  refine keeps_bind (keeps_check _) fun _ => ?_
  refine keeps_bind (keeps_check _) fun _ => ?_
  refine keeps_bind (findPath_keeps fs el cpos) fun nodes => ?_
  cases nodes[el.lTreeDepth - 1]? with
  | none => exact keeps_abort
  | some eb => exact keeps_pure _

end Keeps

/-! ### Reading a block of the tree -/

theorem readExtentBlock_ok {s : St} {blkno : Nat} {eb : ExtentBlock}
    (hr : outOfRange fs blkno = false) (he : s.dev.ebs blkno = some eb)
    (hn : eb.hList.lNextFreeRec ≤ eb.hList.lCount) :
    readExtentBlock fs blkno s = some (.ok eb, s) := by
  have hn' : ¬ eb.hList.lCount < eb.hList.lNextFreeRec := by omega
  simp [readExtentBlock, hr, he, hn']

theorem WfList.le_count : ∀ {d right lo hi el ks}, WfList fs d right lo hi el ks →
    el.lNextFreeRec ≤ el.lCount
  | 0, _, _, _, _, _, h => h.1.le
  | _ + 1, _, _, _, _, _, h => h.1.le

theorem WfList.depth : ∀ {d right lo hi el ks}, WfList fs d right lo hi el ks → el.lTreeDepth = d
  | 0, _, _, _, _, _, h => h.1.depth
  | _ + 1, _, _, _, _, _, h => h.1.depth

/-! ### Following one record -/

theorem ExtentList.live_length (h : el.lNextFreeRec ≤ el.lCount) :
    el.live.length = el.lNextFreeRec := by
  simp only [live, length_take]
  simp only [lCount] at h
  omega

theorem ExtentList.recAt_live {i : Nat} (h : el.live[i]? = some r) : el.recAt i = r := by
  simp only [live, getElem?_take] at h
  split at h
  · simp [recAt, h]
  · cases h

theorem followIndex_eq {rs : List ExtentRec} (hd : el.lTreeDepth = d + 1)
    (hle : el.lNextFreeRec ≤ el.lCount) (hlive : el.live = rs ++ [r])
    (hmax : ∀ x ∈ rs, x.eCpos + x.eIntClusters ≤ uint32Max) :
    followIndex el cpos = rs.findIdx fun x => decide (Covers eCpos eIntClusters x cpos) := by
  have hrs : el.lRecs.take (el.lNextFreeRec - 1) = rs := by
    have hlen := ExtentList.live_length hle
    rw [← @dropLast_concat _ rs r, ← hlive, dropLast_eq_take, hlen, ExtentList.live, take_take,
      min_eq_left (Nat.sub_le _ _)]
  rw [followIndex, hrs]
  clear hrs hlive
  -- on the records of the list the 32-bit sum is the sum
  induction rs with
  | nil => rfl
  | cons x rs ih =>
    have hsum : addW 32 x.eCpos (recClusters el.lTreeDepth x) = x.eCpos + x.eIntClusters := by
      have := hmax x mem_cons_self
      rw [hd, recClusters_succ, addW_32_eq]
      unfold uint32Max at this
      omega
    rw [findIdx_cons, findIdx_cons, hsum, ih fun y hy => hmax y (mem_cons_of_mem _ hy)]
    by_cases h1 : x.eCpos ≤ cpos <;> by_cases h2 : cpos < x.eCpos + x.eIntClusters <;>
      simp [Covers, h1, h2]

/-! ### The whole path -/

/-- The blocks a walk for `cpos` passes, in the tree. -/
def route : Nat → ExtentList → List Node → Nat → List ExtentBlock
  | 0, _, _, _ => []
  | d + 1, el, ks, cpos =>
    match ks[followIndex el cpos]? with
    | some k => k.eb :: route d k.eb.hList k.kids cpos
    | none => []

/-- A walk for `cpos` stays in the tree, and what hangs beside its way does not hold `cpos`. -/
def Guides (cpos : Nat) : Nat → ExtentList → List Node → Prop
  | 0, el, _ => el.lTreeDepth = 0 ∧ el.lNextFreeRec ≤ el.lCount
  | d + 1, el, ks => (el.lTreeDepth = d + 1 ∧ el.lNextFreeRec ≤ el.lCount) ∧
      ∃ pre r post kpre k kpost, el.live = pre ++ r :: post ∧ ks = kpre ++ k :: kpost ∧
        pre.length = kpre.length ∧ pre.length = followIndex el cpos ∧
        (∀ j ∈ kpre, ∀ x ∈ treeRecs d j.eb.hList j.kids, x.eCpos + x.eLeafClusters ≤ cpos) ∧
        (∀ j ∈ kpost, ∀ x ∈ treeRecs d j.eb.hList j.kids, cpos < x.eCpos) ∧
        Guides cpos d k.eb.hList k.kids

theorem Guides.list : ∀ {d el ks}, Guides cpos d el ks →
    el.lTreeDepth = d ∧ el.lNextFreeRec ≤ el.lCount
  | 0, _, _, h => h
  | _ + 1, _, _, h => h.1

/-- The list is `rs` and one more record, and its kids lie where the records of `rs` and `r'`
    tile the range of the list; `r'` need not be the record that is there. -/
theorem guides_of_tiled {rs : List ExtentRec} {r' : ExtentRec} {ks : List Node}
    (hd : el.lTreeDepth = d + 1) (hle : el.lNextFreeRec ≤ el.lCount) (hlive : el.live = rs ++ [r])
    (hmax : ∀ x ∈ rs, x.eCpos + x.eIntClusters ≤ uint32Max)
    (ht : Tiled eCpos eIntClusters lo (rs ++ [r']) hi) (hlo : lo ≤ cpos)
    (hkids : List.Forall₂ (fun x k => Spaced eCpos eLeafClusters x.eCpos
      (treeRecs d k.eb.hList k.kids) (x.eCpos + x.eIntClusters) ∧
        (x.eCpos ≤ cpos → Guides cpos d k.eb.hList k.kids)) (rs ++ [r']) ks) :
    Guides cpos (d + 1) el ks := by
  obtain ⟨pre, x, post, heq, hlen, hx1, hx2⟩ := tiled_findIdx ht (by simp) hlo
  rw [dropLast_concat, ← followIndex_eq hd hle hlive hmax] at hlen
  rw [heq] at hkids
  obtain ⟨kpre, krest, rfl, hpk, hbefore, hrest⟩ := forall₂_append_left hkids
  obtain ⟨k, kpost, ⟨-, hk⟩, hafter, rfl⟩ := forall₂_cons_left_iff.mp hrest
  obtain ⟨m, hpre, hm, hpos, hpost⟩ := spaced_append.mp (heq ▸ ht.spaced)
  obtain ⟨x', post', hlive'⟩ : ∃ x' post', el.live = pre ++ x' :: post' := by
    rcases eq_nil_or_concat post with rfl | ⟨post, z, rfl⟩
    · obtain ⟨rfl, -⟩ := append_inj' heq rfl
      exact ⟨r, [], hlive⟩
    · rw [concat_eq_append, ← cons_append, ← append_assoc] at heq
      obtain ⟨rfl, -⟩ := append_inj' heq rfl
      exact ⟨x, post ++ [r], by simp [hlive]⟩
  refine ⟨⟨hd, hle⟩, pre, x', post', kpre, k, kpost, hlive', rfl, hpk, hlen, ?_, ?_, hk hx1⟩
  · intro j hj y hy
    obtain ⟨r', hr', hs, -⟩ := forall₂_mem_right hbefore j hj
    have h1 := (hs.mem_bounds y hy).2.2
    have h2 := (hpre.mem_bounds r' hr').2.2
    omega
  · intro j hj y hy
    obtain ⟨r', hr', hs, -⟩ := forall₂_mem_right hafter j hj
    have h1 := (hs.mem_bounds y hy).1
    have h2 := (hpost.mem_bounds r' hr').1
    rcases hx2 with rfl | hx2
    · cases hr'
    · omega

theorem WfList.guides : ∀ {d right lo hi el ks}, WfList fs d right lo hi el ks →
    hi ≤ uint32Max → lo ≤ cpos → Guides cpos d el ks
  | 0, _, _, _, _, _, h, _, _ => ⟨h.1.depth, h.1.le⟩
  | d + 1, _, _, _, el, ks, h, hhi, hlo => by
    have hbound := h.1.tiled.spaced.mem_bounds
    obtain ⟨rs, r, hlive⟩ := (eq_nil_or_concat el.live).resolve_left h.1.ne
    rw [concat_eq_append] at hlive
    refine guides_of_tiled h.1.depth h.1.le hlive ?_ (hlive ▸ h.1.tiled) hlo (hlive ▸ ?_)
    · intro x hx
      exact le_trans (hbound x (by rw [hlive]; exact mem_append_left _ hx)).2.2 hhi
    · refine forall₂_imp_mem (EachLast.forall₂ (R := fun x k => ∃ right, WfList fs d right x.eCpos
        (x.eCpos + x.eIntClusters) k.eb.hList k.kids) (fun f _ _ hk => ⟨f, hk.2⟩) h.2.2) ?_
      rintro x hx k - ⟨_, hk⟩
      exact ⟨hk.recs_spaced, hk.guides (le_trans (hbound x hx).2.2 hhi)⟩

/-- **`ocfs2_find_path`** returns the blocks of `route`. -/
theorem findPathLoop_eq : ∀ {d n el ks s}, Guides cpos d el ks →
    readKids s.dev.ebs d el = some ks → (∀ b ∈ treeBlocks d ks, outOfRange fs b = false) → d ≤ n →
    findPathLoop fs n el cpos s = some (.ok (route d el ks cpos), s)
  | 0, n, el, ks, s, hw, _, _, _ => by
    have hd := hw.1
    cases n <;> simp [findPathLoop, hd, route]
  | d + 1, 0, _, _, _, _, _, _, hn => by omega
  | d + 1, n + 1, el, ks, s, hw, hread, hrange, hn => by
    obtain ⟨⟨hd, hle⟩, pre, r, post, kpre, k, kpost, hlive, hks, hpk, hidx, -, -, hkid⟩ := hw
    have hne : el.lNextFreeRec ≠ 0 := by
      intro h0
      have := ExtentList.live_length hle
      rw [hlive, h0] at this
      simp at this
    have hrec : el.recAt (followIndex el cpos) = r := by
      apply ExtentList.recAt_live
      rw [← hidx, hlive]
      simp
    have hk : ks[followIndex el cpos]? = some k := by
      rw [← hidx, hpk, hks]
      simp
    have hkmem : k ∈ ks := by rw [hks]; simp
    have hlead : Leads s.dev.ebs d r k := by
      rw [readKids_succ, hlive, hks] at hread
      have := (forall₂_append hpk).mp hread
      exact (forall₂_cons.mp this.2).1
    have hb := hrange r.eBlkno (mem_treeBlocks_succ.mpr ⟨k, hkmem, .inl hlead.blkno.symm⟩)
    have hblk : r.eBlkno ≠ 0 := ne_zero_of_inRange hb
    have hsub := findPathLoop_eq hkid hlead.kids
      (fun b hb' => hrange b (mem_treeBlocks_succ.mpr ⟨k, hkmem, .inr hb'⟩))
      (Nat.le_of_succ_le_succ hn)
    have hcount : ¬ k.eb.hList.lCount < k.eb.hList.lNextFreeRec := not_lt.mpr hkid.list.2
    simp only [findPathLoop, hd, Nat.succ_ne_zero, if_false, hne, hrec, hblk,
      bind_ok (readExtentBlock_ok hb hlead.eb hkid.list.2), hcount, bind_ok hsub, route, hk,
        pure_run]

/-- **Where a walk ends.** The leaf of the path splits the leaves of the tree: what is mapped to its
    left ends at or before `cpos`, what is mapped to its right starts behind `cpos`. -/
theorem route_split : ∀ {d el ks}, Guides cpos (d + 1) el ks →
    ∃ left leaf rest, treeLeaves (d + 1) ks = left ++ leaf :: rest ∧
      (route (d + 1) el ks cpos)[d]? = some leaf ∧ leaf.hList.lTreeDepth = 0 ∧
      (∀ eb ∈ left, ∀ x ∈ eb.hList.nonempty, x.eCpos + x.eLeafClusters ≤ cpos) ∧
      (∀ eb ∈ rest, ∀ x ∈ eb.hList.nonempty, cpos < x.eCpos)
  | d, el, ks, hw => by
    obtain ⟨-, pre, r, post, kpre, k, kpost, -, hks, hpk, hidx, hbefore, hafter, hkid⟩ := hw
    have hk : ks[followIndex el cpos]? = some k := by
      rw [← hidx, hpk, hks]
      simp
    have hL : ∀ eb ∈ kpre.flatMap (nodeLeaves d), ∀ x ∈ eb.hList.nonempty,
        x.eCpos + x.eLeafClusters ≤ cpos := by
      intro eb heb x hx
      obtain ⟨j, hj, heb⟩ := mem_flatMap.mp heb
      exact hbefore j hj x (mem_treeRecs_of_leaf heb hx)
    have hR : ∀ eb ∈ kpost.flatMap (nodeLeaves d), ∀ x ∈ eb.hList.nonempty, cpos < x.eCpos := by
      intro eb heb x hx
      obtain ⟨j, hj, heb⟩ := mem_flatMap.mp heb
      exact hafter j hj x (mem_treeRecs_of_leaf heb hx)
    have hleaves : treeLeaves (d + 1) ks = kpre.flatMap (nodeLeaves d) ++
        (nodeLeaves d k ++ kpost.flatMap (nodeLeaves d)) := by
      rw [treeLeaves_succ, hks, flatMap_append, flatMap_cons]
    cases d with
    | zero =>
      refine ⟨_, k.eb, _, hleaves, ?_, hkid.1, hL, hR⟩
      simp [route, hk]
    | succ d =>
      obtain ⟨left, leaf, rest, h1, h2, hdepth, h3, h4⟩ := route_split hkid
      refine ⟨kpre.flatMap (nodeLeaves (d + 1)) ++ left, leaf,
        rest ++ kpost.flatMap (nodeLeaves (d + 1)), ?_, ?_, hdepth, ?_, ?_⟩
      · rw [hleaves, nodeLeaves, h1]
        simp
      · simp only [route, hk, getElem?_cons_succ]
        simpa [route] using h2
      · exact forall_mem_append.mpr ⟨hL, h3⟩
      · exact forall_mem_append.mpr ⟨h4, hR⟩

end Ocfs2Tools
