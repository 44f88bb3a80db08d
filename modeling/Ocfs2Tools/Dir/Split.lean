import Ocfs2Tools.Dir.SplitHash

/-!
# A split, as a whole

On an index whose records are all in the root block, `ocfs2_dx_dir_rebalance` either fails
and says why, or leaves `splitIndex`: the old cluster keeps what is below the split hash, the
new one gets the rest. The new cluster is inserted by `ocfs2_tree_insert_extent`; that this
adds one cluster to the tree, as a record of its own or joined with a neighbour, needs a free
record, room in the neighbour's 16-bit length, and that no record reaches the last hash.
-/

namespace Ocfs2Tools.DxDir

open List Prog ExtentRec

variable {fs : Filesys} {env : Env} {ix : Index} {h : Hinfo} {c : Nat × Nat}
  {i split orig start : Nat} {leaf : DxLeaf}

/-! ### Well-formed indexes -/

/-- The records are in the root block, in order and below the last hash, with one for hash 0; every
    leaf of every cluster is there, and every entry is in the leaf that its hash belongs into. -/
structure WfIndex (fs : Filesys) (ix : Index) : Prop where
  tree : ix.root.inline = false
  list : LeafOk fs 0 uint32Max ix.drList
  first : ∃ r ∈ ix.recs, r.eCpos = 0
  apart : ∀ c ∈ clusters fs ix.recs, ∀ c' ∈ clusters fs ix.recs, c.2 = c'.2 → c = c'
  leaf : ∀ c ∈ clusters fs ix.recs, ∀ i, i < fs.bpc → ∃ leaf,
    ix.leaves (c.2 + i) = some leaf ∧ leaf.dlBlkno = c.2 + i ∧
      leaf.dlList.deCount = dxEntriesPerLeaf fs ∧ leaf.dlList.deNumUsed ≤ dxEntriesPerLeaf fs
  placed : ∀ c ∈ clusters fs ix.recs, ∀ i, i < fs.bpc → ∀ e ∈ ix.entriesAt (c.2 + i),
    dxDirHashIdx fs e.minor = i ∧ Selects fs ix.recs e.major c ∧ e.major < uint32Max

/-- The list has room for one more record, and no record is too long for one more cluster. -/
structure Takes (ix : Index) : Prop where
  free : ix.drList.lNextFreeRec < ix.drList.lCount
  short : ∀ r ∈ ix.recs, r.eLeafClusters < 65535

/-- What the allocator is relied on for: a new cluster is none of the index. -/
def Env.Ok (fs : Filesys) (env : Env) : Prop :=
  ∀ ix start, env.newCluster ix = some start → fs.bpc ∣ start ∧ start ≠ 0 ∧
    start / fs.bpc + 1 ≤ uint32Max ∧ ∀ c ∈ clusters fs ix.recs, c.2 ≠ start

theorem shape_of_leaf {el : ExtentList} (hok : LeafOk fs 0 uint32Max el)
    (hfirst : ∃ r ∈ el.nonempty, r.eCpos = 0) : Shape fs el.nonempty :=
  ⟨hok.nonempty_spaced.weaken (le_refl _) (by decide),
    fun r hr => hok.recs r (hok.nonempty_eq ▸ hr), hfirst⟩

theorem recs_eq (hd : ix.drList.lTreeDepth = 0) : ix.recs = ix.drList.nonempty := diskRecs_root hd

theorem spaced_starts {hi : Nat} : ∀ {recs : List ExtentRec} {lo},
    Spaced eCpos eLeafClusters lo recs hi → Spaced eCpos (fun _ => 1) lo recs hi
  | [], _, h => h
  | _ :: _, _, ⟨h1, h2, h3⟩ =>
    ⟨h1, Nat.one_pos, (spaced_starts h3).weaken (Nat.add_le_add_left h2 _) (le_refl _)⟩

theorem treeOk_of_leaf (hok : LeafOk fs 0 uint32Max ix.drList)
    (hfirst : ∃ r ∈ ix.recs, r.eCpos = 0) : TreeOk fs ix := by
  have hd := hok.depth
  rw [recs_eq hd] at hfirst
  refine ⟨by rw [hd]; decide, ⟨[], by rw [hd]; rfl, by rw [hd]; nofun, ?_⟩,
    recs_eq hd ▸ shape_of_leaf hok hfirst⟩
  rw [hd]
  refine ⟨hd, hok.le, rfl, ?_, fun r hr => ?_, ?_, fun _ _ _ => ⟨Nat.zero_le _, nofun⟩, nofun⟩
  · rw [hok.nonempty_eq]
    exact live_eq_dropEmpty _
  · exact (hok.recs r (hok.nonempty_eq ▸ hr)).blkno_ne
  · exact spaced_starts (hok.nonempty_spaced.weaken (le_refl _) (by decide))

/-- A lookup finds the cluster that the hash belongs into, since no record reaches the last hash. -/
theorem lookup_of_leaf (hok : LeafOk fs 0 uint32Max ix.drList)
    (hfirst : ∃ r ∈ ix.recs, r.eCpos = 0) (h : Hinfo) (hlt : h.majorHash < 4294967296) :
    ∃ c, Selects fs ix.recs h.majorHash c ∧
      dxDirLookup fs h ix = some (.ok (c.1, c.2 + dxDirHashIdx fs h.minorHash), ix) := by
  obtain ⟨r, hr, c, hc, hlook, ⟨-, hsel⟩ | ⟨hw, -⟩⟩ := (treeOk_of_leaf hok hfirst).lookup h hlt
  · exact ⟨c, hsel, hlook⟩
  · obtain ⟨before, behind, heq, -⟩ := floorRec_eq hr
    have hmem : r ∈ ix.drList.nonempty := by
      rw [← recs_eq hok.depth, heq]
      exact mem_append_right _ mem_cons_self
    have hlow := (hok.nonempty_spaced.mem_bounds r hmem).2.2
    have := hw.2
    unfold uint32Max at hlow
    omega

theorem WfIndex.shape (hix : WfIndex fs ix) : Shape fs ix.recs :=
  (treeOk_of_leaf hix.list hix.first).shape

theorem WfIndex.lookup (hix : WfIndex fs ix) (h : Hinfo) (hlt : h.majorHash < 4294967296) :
    ∃ c, Selects fs ix.recs h.majorHash c ∧
      dxDirLookup fs h ix = some (.ok (c.1, c.2 + dxDirHashIdx fs h.minorHash), ix) :=
  lookup_of_leaf hix.list hix.first h hlt

/-! ### One more cluster -/

theorem clusters_append (fs : Filesys) (as bs : List ExtentRec) :
    clusters fs (as ++ bs) = clusters fs as ++ clusters fs bs := flatMap_append

theorem clusters_cons (fs : Filesys) (r : ExtentRec) (rest : List ExtentRec) :
    clusters fs (r :: rest) = ((List.range r.eLeafClusters).map fun i =>
      (r.eCpos + i, r.eBlkno + clustersToBlocks fs i)) ++ clusters fs rest := by
  rw [clusters, flatMap_cons, clusters]

/-- Two records that continue each other, in one. -/
theorem clusters_join {x y z : ExtentRec} (hz : z.eCpos = x.eCpos ∧ z.eBlkno = x.eBlkno ∧
      z.eLeafClusters = x.eLeafClusters + y.eLeafClusters)
    (hc : x.eCpos + x.eLeafClusters = y.eCpos)
    (hb : x.eBlkno + clustersToBlocks fs x.eLeafClusters = y.eBlkno) :
    clusters fs [z] = clusters fs [x] ++ clusters fs [y] := by
  simp only [clusters, flatMap_singleton, hz.1, hz.2.1, hz.2.2, range_add, map_append, map_map,
    Function.comp_def, ← hc, ← hb, clustersToBlocks, Nat.add_mul, Nat.add_assoc]

theorem inserted_clusters {r : ExtentRec} {recs recs' : List ExtentRec}
    (h : Inserted fs r recs recs') :
    (clusters fs recs').Perm (clusters fs [r] ++ clusters fs recs) := by
  cases h with
  | new pre post before behind =>
    rw [clusters_append, clusters_append, ← singleton_append, clusters_append]
    exact perm_append_comm_assoc _ _ _
  | right pre post x flags adjacent blocks short behind =>
    rw [clusters_append, clusters_append, ← singleton_append, ← singleton_append (l := post),
      clusters_append, clusters_append, clusters_join (x := x) (y := r) (z := joinRight x r)
        ⟨rfl, rfl, rfl⟩ adjacent blocks, append_assoc]
    refine Perm.trans ((perm_append_comm_assoc _ _ _).append_left _) ?_
    exact perm_append_comm_assoc _ _ _
  | left pre post x flags adjacent blocks short before =>
    rw [clusters_append, clusters_append, ← singleton_append, ← singleton_append (l := post),
      clusters_append, clusters_append,
      clusters_join (x := r) (y := x) (z := joinLeft x r) ⟨rfl, rfl, Nat.add_comm _ _⟩ adjacent
        blocks, append_assoc]
    exact perm_append_comm_assoc _ _ _

/-- **The insertion of a cluster** into a list in the root block: it goes through or the write of
    the root fails, and then the clusters are those from before and the new one. -/
theorem treeInsertExtent_cluster {s : St} {cpos : Nat} (hok : LeafOk fs 0 uint32Max s.root.iList)
    (hfree : s.root.iList.lNextFreeRec < s.root.iList.lCount)
    (hshort : ∀ r ∈ s.root.iList.nonempty, r.eLeafClusters < 65535) (hcpos : cpos < uint32Max)
    (hno : ∀ c ∈ clusters fs s.root.iList.nonempty, c.1 ≠ cpos) (hd : fs.bpc ∣ start)
    (hne : start ≠ 0) (hb : start / fs.bpc + 1 ≤ uint32Max) :
    (∃ e t, treeInsertExtent fs cpos start 1 0 s = some (.error e, t) ∧ e ≠ .dirNoSpace) ∨
    ∃ t, treeInsertExtent fs cpos start 1 0 s = some (.ok (), t) ∧
      LeafOk fs 0 uint32Max t.root.iList ∧ t.root.iList.lCount = s.root.iList.lCount ∧
      t.root.iList.lNextFreeRec ≤ s.root.iList.lNextFreeRec + 1 ∧
      (clusters fs t.root.iList.nonempty).Perm
        ((cpos, start) :: clusters fs s.root.iList.nonempty) := by
  obtain ⟨k, rfl⟩ := hd
  rw [Nat.mul_div_cancel_left _ fs.bpc_pos] at hb
  rw [Nat.mul_comm] at hne ⊢
  change clustersToBlocks fs k ≠ 0 at hne
  change (∃ e t, treeInsertExtent fs cpos (clustersToBlocks fs k) 1 0 s = _ ∧ _) ∨
    ∃ t, treeInsertExtent fs cpos (clustersToBlocks fs k) 1 0 s = _ ∧ _
  have hkpos : 0 < k := by
    rcases Nat.eq_zero_or_pos k with rfl | h
    · exact absurd (Nat.zero_mul _) hne
    · exact h
  obtain ⟨el, hleaf, hrun⟩ := @treeInsertExtent_root fs s cpos (clustersToBlocks fs k) 1 0
    hok.depth hfree
  have hfit : Fitting fs s.root.iList cpos k 1 := by
    refine ⟨Nat.one_pos, by decide, hkpos, hb, hcpos, fun w h1 h2 => recsMap_eq_none.mpr
      fun r hr hc => ?_, fun r hr => by have := hshort r hr; omega⟩
    obtain rfl : w = cpos := by omega
    have h1 : r.eCpos ≤ w := hc.1
    have h2 : w < r.eCpos + r.eLeafClusters := hc.2
    exact hno _ (mem_clusters.mpr ⟨r, hr, w - r.eCpos, by omega, rfl⟩)
      (show r.eCpos + (w - r.eCpos) = w by omega)
  obtain ⟨hok', hins⟩ := hleaf.leafOk hok (le_refl _) hfree (hfit.hole hok) (Nat.zero_le _)
    (le_refl _) (show cpos + 1 % 65536 ≤ uint32Max by omega) (by decide)
  have hperm := inserted_clusters hins
  rw [show clusters fs [insertRecOf cpos (clustersToBlocks fs k) 1 0] =
    [(cpos, clustersToBlocks fs k)] by simp [clusters, insertRecOf, clustersToBlocks]] at hperm
  rw [hrun, writeInode]
  split
  · exact .inl ⟨_, _, rfl, by decide⟩
  · rw [writeBlock]
    split
    · exact .inl ⟨_, _, rfl, by decide⟩
    all_goals exact .inr ⟨_, rfl, hok', hleaf.count, hleaf.next, hperm⟩

theorem Shape.aligned {recs : List ExtentRec} (hs : Shape fs recs) (hc : c ∈ clusters fs recs) :
    fs.bpc ∣ c.2 ∧ c.2 / fs.bpc < uint32Max := by
  obtain ⟨r, hr, i, hi, rfl⟩ := mem_clusters.mp hc
  have hok := hs.ok r hr
  have hdvd : fs.bpc ∣ clustersToBlocks fs i := Nat.dvd_mul_left _ _
  refine ⟨Nat.dvd_add hok.aligned hdvd, ?_⟩
  have hb := hok.bound
  have hdiv : (r.eBlkno + clustersToBlocks fs i) / fs.bpc = r.eBlkno / fs.bpc + i :=
    Nat.add_mul_div_right _ _ fs.bpc_pos
  dsimp only
  omega

theorem blockToClusterStart_eq {recs : List ExtentRec} (hs : Shape fs recs)
    (hc : c ∈ clusters fs recs) (hi : i < fs.bpc) : blockToClusterStart fs (c.2 + i) = c.2 := by
  obtain ⟨⟨k, hk⟩, hlt⟩ := hs.aligned hc
  rw [hk, Nat.mul_div_cancel_left _ fs.bpc_pos] at hlt
  have hdiv : (c.2 + i) / fs.bpc = k := by
    rw [hk, Nat.mul_add_div fs.bpc_pos, Nat.div_eq_of_lt hi, Nat.add_zero]
  rw [blockToClusterStart, blocksToClusters, hdiv, if_neg (by omega), clustersToBlocks, hk,
    Nat.mul_comm]

theorem aligned_apart {a b j : Nat} (ha : fs.bpc ∣ a) (hb : fs.bpc ∣ b) (hi : i < fs.bpc)
    (hj : j < fs.bpc) (heq : a + i = b + j) : a = b ∧ i = j := by
  obtain ⟨x, rfl⟩ := ha
  obtain ⟨y, rfl⟩ := hb
  have h1 : (fs.bpc * x + i) % fs.bpc = i := by
    rw [Nat.mul_add_mod, Nat.mod_eq_of_lt hi]
  have h2 : (fs.bpc * y + j) % fs.bpc = j := by
    rw [Nat.mul_add_mod, Nat.mod_eq_of_lt hj]
  have hij : i = j := by rw [← h1, heq, h2]
  exact ⟨by omega, hij⟩

/-! ### Formatting, reading and moving leaves -/

theorem dxDirFormatCluster_eq (n start leaves b) :
    dxDirFormatCluster fs start n leaves b = if start ≤ b ∧ b < start + n then some (emptyLeaf fs b)
      else leaves b := by
  induction n generalizing start leaves b with
  | zero => rw [dxDirFormatCluster, if_neg (by omega)]
  | succ n ih =>
    rw [dxDirFormatCluster, ih]
    by_cases hb : b = start
    · rw [if_neg (by omega), if_pos (by omega), hb, writeDxLeaf, if_pos rfl]
    · by_cases hin : start ≤ b ∧ b < start + (n + 1)
      · rw [if_pos (by omega), if_pos hin]
      · rw [if_neg (by omega), if_neg hin, writeDxLeaf, if_neg hb]

theorem readDxLeaves_eq {start : Nat} : ∀ n,
    (∀ i, i < n → ∃ leaf, ix.leaves (start + i) = some leaf) →
    ∃ ls, readDxLeaves start n ix = some (.ok ls, ix) ∧ ls.length = n ∧
      ∀ i, i < n → ls[i]? = ix.leaves (start + i)
  | 0, _ => ⟨[], rfl, rfl, fun i hi => by omega⟩
  | n + 1, hall => by
    obtain ⟨ls, hls, hlen, hget⟩ := readDxLeaves_eq n fun i hi => hall i (by omega)
    obtain ⟨leaf, hleaf⟩ := hall n (Nat.lt_succ_self n)
    refine ⟨ls ++ [leaf], ?_, by simp [hlen], fun i hi => ?_⟩
    · rw [readDxLeaves, bind_ok hls, bind_ok (readDxLeaf_run hleaf)]
      rfl
    · by_cases hin : i < n
      · rw [getElem?_append_left (by omega), hget i hin]
      · obtain rfl : i = n := by omega
        rw [getElem?_append_right (by omega), hlen, Nat.sub_self, hleaf]
        rfl

def takeFrom (fs : Filesys) (splitHash blkno : Nat) (es : List DxEntry) : DxLeaf :=
  ⟨blkno, ⟨dxEntriesPerLeaf fs, es.filter fun e => splitHash ≤ e.major⟩⟩

/-- What the transfer leaves in a block: the leaves of the two clusters from index `i` on
    are written, the first cluster's ones from `os`. -/
theorem dxDirTransferLeaf_eq {new : Nat} (os ns i leaves) (hlen : os.length = ns.length)
    (hns : ∀ k, k < os.length → ns[k]? = some (emptyLeaf fs (new + i + k)))
    (hapart : ∀ j k, i ≤ j → j < i + os.length → i ≤ k → k < i + os.length → orig + j ≠ new + k) :
    (∀ k o, os[k]? = some o →
      dxDirTransferLeaf split orig new i os ns leaves (orig + i + k) = some (keepBelow split o)) ∧
    (∀ k o, os[k]? = some o → dxDirTransferLeaf split orig new i os ns leaves (new + i + k) =
      some (takeFrom fs split (new + i + k) o.dlList.deEntries)) ∧
    ∀ b, (∀ k, i ≤ k → k < i + os.length → b ≠ orig + k ∧ b ≠ new + k) →
      dxDirTransferLeaf split orig new i os ns leaves b = leaves b := by
  induction os generalizing ns i leaves with
  | nil =>
    refine ⟨nofun, nofun, fun b _ => ?_⟩
    cases ns <;> rfl
  | cons o os ih =>
    cases ns with
    | nil => cases hlen
    | cons n ns =>
      have hn : n = emptyLeaf fs (new + i) := Option.some.inj (hns 0 (by simp))
      rw [length_cons] at hapart
      have hgo : moveFrom split n o = takeFrom fs split (new + i) o.dlList.deEntries := by
        rw [hn]
        rfl
      rw [dxDirTransferLeaf, hgo]
      obtain ⟨h1, h2, h3⟩ := ih ns (i + 1) (writeDxLeaf (writeDxLeaf leaves (orig + i)
          (keepBelow split o)) (new + i) (takeFrom fs split (new + i) o.dlList.deEntries))
        (by simpa using hlen)
        (by
          intro k hk
          have := hns (k + 1) (by simpa using hk)
          rw [getElem?_cons_succ] at this
          rw [this]
          congr 2
          omega)
        (fun j k hj hj' hk hk' => hapart j k (by omega) (by omega) (by omega) (by omega))
      refine ⟨?_, ?_, ?_⟩
      · intro k x hx
        cases k with
        | zero =>
          cases hx
          have hout := h3 (orig + i) fun k hk hk' =>
            ⟨by omega, hapart i k (le_refl i) (by omega) (by omega) (by omega)⟩
          refine hout.trans ?_
          have hne := hapart i i (le_refl i) (by omega) (le_refl i) (by omega)
          rw [writeDxLeaf, if_neg hne, writeDxLeaf, if_pos rfl]
        | succ k =>
          have := h1 k x hx
          rw [show orig + i + (k + 1) = orig + (i + 1) + k by omega]
          exact this
      · intro k x hx
        cases k with
        | zero =>
          cases hx
          have hout := h3 (new + i) fun k hk hk' =>
            ⟨(hapart k i (by omega) (by omega) (le_refl i) (by omega)).symm, by omega⟩
          exact hout.trans (if_pos rfl)
        | succ k =>
          have := h2 k x hx
          rw [show new + i + (k + 1) = new + (i + 1) + k by omega]
          exact this
      · intro b hb
        have hout := h3 b fun k hk hk' => hb k (by omega) (by simp only [length_cons]; omega)
        refine hout.trans ?_
        obtain ⟨hb1, hb2⟩ := hb i (le_refl i) (by simp)
        rw [writeDxLeaf, if_neg hb2, writeDxLeaf, if_neg hb1]

/-! ### The run of a split -/

/-- The index after a split; the extent tree code left `s`. -/
def splitIndex (fs : Filesys) (ix : Index) (orig split start : Nat) (s : St) : Index where
  root := ix.root
  st := s
  leaves := fun b =>
    if orig ≤ b ∧ b < orig + fs.bpc then (ix.leaves b).map (keepBelow split)
    else if start ≤ b ∧ b < start + fs.bpc then
      some (takeFrom fs split b (ix.entriesAt (orig + (b - start))))
    else ix.leaves b

theorem formattedLeaves_getElem? (fs : Filesys) {n k : Nat} (hk : k < n) :
    (formattedLeaves fs start n)[k]? = some (emptyLeaf fs (start + k)) := by
  rw [formattedLeaves, getElem?_map, getElem?_range hk]
  rfl

theorem transferred_eq (hd : fs.bpc ∣ orig) (hd' : fs.bpc ∣ start) (hne : orig ≠ start)
    {ls : List DxLeaf} (hlen : ls.length = fs.bpc)
    (hls : ∀ i, i < fs.bpc → ls[i]? = ix.leaves (orig + i)) (s : St) :
    dxDirTransferLeaf split orig start 0 ls (formattedLeaves fs start fs.bpc)
        (dxDirFormatCluster fs start fs.bpc ix.leaves) =
      (splitIndex fs ix orig split start s).leaves := by
  have hapart : ∀ j k, j < fs.bpc → k < fs.bpc → orig + j ≠ start + k := by
    intro j k hj hk heq
    exact hne (aligned_apart hd hd' hj hk heq).1
  obtain ⟨h1, h2, h3⟩ := @dxDirTransferLeaf_eq fs split orig start ls
    (formattedLeaves fs start fs.bpc) 0 (dxDirFormatCluster fs start fs.bpc ix.leaves)
    (by simp [formattedLeaves, hlen])
    (fun k hk => formattedLeaves_getElem? fs (by omega))
    (fun j k _ hj _ hk => hapart j k (by omega) (by omega))
  have hold : ∀ k, k < fs.bpc → ∃ o, ls[k]? = some o :=
    fun k hk => ⟨ls[k], getElem?_eq_getElem (by omega)⟩
  funext b
  unfold splitIndex
  dsimp only
  by_cases horig : orig ≤ b ∧ b < orig + fs.bpc
  · obtain ⟨k, rfl⟩ := Nat.exists_eq_add_of_le horig.1
    have hk : k < fs.bpc := by omega
    obtain ⟨o, ho⟩ := hold k hk
    rw [if_pos horig, ← hls k hk, ho]
    exact h1 k o ho
  · rw [if_neg horig]
    by_cases hnew : start ≤ b ∧ b < start + fs.bpc
    · obtain ⟨k, rfl⟩ := Nat.exists_eq_add_of_le hnew.1
      have hk : k < fs.bpc := by omega
      obtain ⟨o, ho⟩ := hold k hk
      rw [if_pos hnew, Nat.add_sub_cancel_left, Index.entriesAt, ← hls k hk, ho]
      exact h2 k o ho
    · rw [if_neg hnew]
      refine (h3 b fun k _ hk => ⟨?_, ?_⟩).trans ?_
      · omega
      · omega
      · rw [dxDirFormatCluster_eq, if_neg hnew]

/-- What a split makes of a leaf that is full, in the cluster `c` that the hash belongs into. -/
inductive SplitRun (env : Env) (fs : Filesys) (ix : Index) (h : Hinfo) (c : Nat × Nat)
    (es : List DxEntry) : Option (Except Errcode Unit × Index) → Prop where
  | most (clusters : ix.drClusters = uint32Max) :
      SplitRun env fs ix h c es (some (.error .dirNoSpace, ix))
  | same (all : ∀ e ∈ es, e.major = h.majorHash)
      (picked : dxDirFindLeafSplit (sortEntries es) c.1 h.majorHash = some (.error .dirNoSpace)) :
      SplitRun env fs ix h c es (some (.error .dirNoSpace, ix))
  | noCluster (none : env.newCluster ix = none) :
      SplitRun env fs ix h c es (some (.error .noSpace, ix))
  | refused (split start : Nat) (e : Errcode) (s : St) (ix' : Index) (ne : e ≠ .dirNoSpace)
      (picked : dxDirFindLeafSplit (sortEntries es) c.1 h.majorHash = some (.ok split))
      (cluster : env.newCluster ix = some start)
      (insert : treeInsertExtent fs split start 1 0 ix.st = some (.error e, s)) :
      SplitRun env fs ix h c es (some (.error e, ix'))
  | done (split start : Nat) (s : St)
      (picked : dxDirFindLeafSplit (sortEntries es) c.1 h.majorHash = some (.ok split))
      (spec : SplitAt es c.1 h.majorHash split)
      (cluster : env.newCluster ix = some start)
      (insert : treeInsertExtent fs split start 1 0 ix.st = some (.ok (), s))
      (list : LeafOk fs 0 uint32Max s.root.iList)
      (perm : (DxDir.clusters fs s.root.iList.nonempty).Perm
        ((split, start) :: DxDir.clusters fs ix.recs)) :
      SplitRun env fs ix h c es (some (.ok (), splitIndex fs ix c.2 split start s))

theorem WfIndex.entries_bounds (hix : WfIndex fs ix) (hc : c ∈ clusters fs ix.recs)
    (hi : i < fs.bpc) (hleaf : ix.leaves (c.2 + i) = some leaf) :
    ∀ e ∈ leaf.dlList.deEntries, Selects fs ix.recs e.major c ∧ e.major < uint32Max := by
  intro e he
  exact (hix.placed c hc i hi e (by rw [Index.entriesAt, hleaf]; exact he)).2

theorem split_between {es : List DxEntry} (hsel : Selects fs ix.recs h.majorHash c)
    (hes : ∀ e ∈ es, Selects fs ix.recs e.major c) (hspec : SplitAt es c.1 h.majorHash split) :
    ∀ x ∈ clusters fs ix.recs, x.1 ≤ split → x.1 ≤ c.1 := by
  intro x hx hle
  rcases hspec.reached with hreach | ⟨e, he, hreach⟩
  · exact hsel.2.2 x hx (le_trans hle hreach)
  · exact (hes e he).2.2 x hx (le_trans hle hreach)

theorem dxEntriesPerLeaf_pos (fs : Filesys) : 0 < dxEntriesPerLeaf fs := by
  have := fs.fsBlocksize_ge
  unfold dxEntriesPerLeaf
  omega

theorem dxDirNewCluster_run {cpos : Nat} {r : Except Errcode Unit} {s : St}
    (hcl : env.newCluster ix = some start)
    (hins : treeInsertExtent fs cpos start 1 0 ix.st = some (r, s)) :
    dxDirNewCluster env fs cpos ix = some (r.map fun _ => start,
      { ix with leaves := dxDirFormatCluster fs start fs.bpc ix.leaves, st := s }) := by
  have hrun : insertCluster fs cpos start
      { ix with leaves := dxDirFormatCluster fs start fs.bpc ix.leaves } = some (r,
        { ix with leaves := dxDirFormatCluster fs start fs.bpc ix.leaves, st := s }) := by
    rw [insertCluster, onTree, hins]
  rw [dxDirNewCluster, bind_ok (get_run ix), hcl]
  show ((insertCluster fs cpos start >>= fun _ => pure start) : Dx Nat) _ = _
  cases r with
  | error e => exact bind_error hrun _
  | ok _ => exact bind_ok hrun _

/-- The split hash lies below the last hash, and no cluster starts there yet. -/
theorem SplitAt.fresh {es : List DxEntry} (hspec : SplitAt es c.1 h.majorHash split)
    (hlt : h.majorHash < uint32Max) (hsel : Selects fs ix.recs h.majorHash c)
    (hes : ∀ e ∈ es, Selects fs ix.recs e.major c ∧ e.major < uint32Max) :
    split < uint32Max ∧ ∀ x ∈ clusters fs ix.recs, x.1 ≠ split := by
  constructor
  · rcases hspec.reached with hr | ⟨e, he, hr⟩
    · exact lt_of_le_of_lt hr hlt
    · exact lt_of_le_of_lt hr (hes e he).2
  · intro x hx heq
    have := split_between hsel (fun e he => (hes e he).1) hspec x hx (le_of_eq heq)
    have habove := hspec.above
    omega

/-- **A split** of a leaf that is full, where the list takes one more record. -/
theorem dxDirRebalance_run (henv : env.Ok fs) (hix : WfIndex fs ix) (htakes : Takes ix)
    (hlt : h.majorHash < uint32Max) (hsel : Selects fs ix.recs h.majorHash c)
    (hleaf : ix.leaves (c.2 + dxDirHashIdx fs h.minorHash) = some leaf)
    (hfull : leaf.dlList.full = true) : SplitRun env fs ix h c leaf.dlList.deEntries
      (dxDirRebalance env fs leaf h c.1 (c.2 + dxDirHashIdx fs h.minorHash) ix) := by
  have hi := dxDirHashIdx_lt fs h.minorHash
  obtain ⟨leaf', hleaf', _, hcount, hused⟩ := hix.leaf c hsel.1 _ hi
  rw [hleaf] at hleaf'
  cases hleaf'
  have hge : leaf.dlList.deCount ≤ leaf.dlList.deNumUsed := by
    simpa [EntryList.full] using hfull
  have hne : leaf.dlList.deEntries ≠ [] := by
    apply ne_nil_of_length_pos
    have := dxEntriesPerLeaf_pos fs
    unfold EntryList.deNumUsed at hge
    omega
  have hb := hix.entries_bounds hsel.1 hi hleaf
  by_cases hmost : ix.drClusters = uint32Max
  · have hrun : dxDirRebalance env fs leaf h c.1 (c.2 + dxDirHashIdx fs h.minorHash) ix =
        some (.error .dirNoSpace, ix) := by
      rw [dxDirRebalance, bind_ok (get_run ix), if_pos hmost]
      rfl
    exact hrun ▸ .most hmost
  have hrun : ∀ r, dxDirFindLeafSplit (sortEntries leaf.dlList.deEntries) c.1 h.majorHash = some r →
      dxDirRebalance env fs leaf h c.1 (c.2 + dxDirHashIdx fs h.minorHash) ix = (do
        let split ← ofExcept r
        let orig ← readDxLeaves c.2 fs.bpc
        let start ← dxDirNewCluster env fs split
        Prog.modify fun ix =>
          { ix with
            leaves := dxDirTransferLeaf split c.2 start 0 orig
              (formattedLeaves fs start fs.bpc) ix.leaves }) ix := by
    intro r hr
    rw [dxDirRebalance, bind_ok (get_run ix), if_neg hmost, if_neg (by omega), hr,
      blockToClusterStart_eq hix.shape hsel.1 hi]
    cases r <;> rfl
  have hmax : ∀ {x}, x < uint32Max → x < 4294967296 := fun hx => lt_of_lt_of_le hx (by decide)
  rcases dxDirFindLeafSplit_cases hne (fun e he => (hb e he).1.2.1)
    (fun e he => hmax (hb e he).2) hsel.2.1 (hmax hlt) with ⟨hall, hfind⟩ |
      ⟨-, split, hfind, hsplit⟩
  · rw [hrun _ hfind]
    exact .same hall hfind
  · have hpure : ofExcept (.ok split : Except Errcode Nat) ix = some (.ok split, ix) := rfl
    obtain ⟨ls, hread, hlen, hget⟩ := @readDxLeaves_eq ix c.2 fs.bpc fun i hi' => by
      obtain ⟨lf, hlf, _⟩ := hix.leaf c hsel.1 i hi'
      exact ⟨lf, hlf⟩
    rw [hrun _ hfind, bind_ok hpure, bind_ok hread]
    cases hcl : env.newCluster ix with
    | none =>
      have hnew : dxDirNewCluster env fs split ix = some (.error .noSpace, ix) := by
        rw [dxDirNewCluster, bind_ok (get_run ix), hcl]
        rfl
      rw [bind_error hnew]
      exact .noCluster hcl
    | some start =>
      obtain ⟨hdvd, hne0, hbound, hfresh⟩ := henv ix start hcl
      obtain ⟨hlow, hno⟩ := hsplit.fresh hlt hsel hb
      have hrecs : ix.recs = ix.st.root.iList.nonempty := recs_eq hix.list.depth
      have hshort := htakes.short
      rw [hrecs] at hno hshort
      rcases treeInsertExtent_cluster hix.list htakes.free hshort hlow hno hdvd hne0 hbound with
        ⟨e, s, hins, hne⟩ | ⟨s, hins, hlist, -, -, hperm⟩
      · rw [bind_error (dxDirNewCluster_run hcl hins)]
        exact .refused split start e s _ hne hfind hcl hins
      · rw [bind_ok (dxDirNewCluster_run hcl hins), modify_run,
          transferred_eq (hix.shape.aligned hsel.1).1 hdvd (hfresh c hsel.1) hlen hget s]
        exact .done split start s hfind hsplit hcl hins hlist (hrecs ▸ hperm)

end Ocfs2Tools.DxDir
