import Ocfs2Tools.Dir.Index

/-!
# Which leaf a hash belongs to

Read cluster by cluster, an index tree is a set of positions in the hashes, and a hash
belongs into the cluster with the greatest position at or below it. The records only say
which clusters lie next to each other. `ocfs2_dx_dir_lookup` agrees with this, except for a
record of several clusters that ends exactly at the last hash: its end wraps around to 0,
and every hash in the record is sent to the last cluster.
-/

namespace Ocfs2Tools.DxDir

open List Prog ExtentRec

variable {fs : Filesys} {ix : Index} {recs : List ExtentRec} {r : ExtentRec}
  {c c' : Nat × Nat} {hi hash : Nat}

/-! ### Ordered records -/

/-- The records of an index tree: in order, well formed, and with a cluster for hash 0. -/
structure Shape (fs : Filesys) (recs : List ExtentRec) : Prop where
  spaced : Spaced eCpos eLeafClusters 0 recs 4294967296
  ok : ∀ r ∈ recs, RecOk fs r
  first : ∃ r ∈ recs, r.eCpos = 0

theorem clusters_bounds {lo : Nat} (h : Spaced eCpos eLeafClusters lo recs hi)
    (hc : c ∈ clusters fs recs) : lo ≤ c.1 ∧ c.1 < hi := by
  obtain ⟨r, hr, i, hi', rfl⟩ := mem_clusters.mp hc
  have hb := h.mem_bounds r hr
  constructor
  · exact le_trans hb.1 (Nat.le_add_right _ _)
  · have hlt : r.eCpos + i < r.eCpos + r.eLeafClusters := by omega
    exact lt_of_lt_of_le hlt hb.2.2

theorem clusters_inj {recs lo} (hs : Spaced eCpos eLeafClusters lo recs hi)
    (hc : c ∈ clusters fs recs) (hc' : c' ∈ clusters fs recs) (heq : c.1 = c'.1) : c = c' := by
  induction recs generalizing lo heq with
  | nil => cases hc
  | cons r rest ih =>
    have hsplit : ∀ {x}, x ∈ clusters fs (r :: rest) →
        (∃ i, i < r.eLeafClusters ∧ x = (r.eCpos + i, r.eBlkno + clustersToBlocks fs i)) ∨
          x ∈ clusters fs rest := by
      intro x hx
      obtain ⟨r', hr', i, hi', rfl⟩ := mem_clusters.mp hx
      rcases mem_cons.mp hr' with rfl | hr'
      · exact .inl ⟨i, hi', rfl⟩
      · exact .inr (mem_clusters.mpr ⟨r', hr', i, hi', rfl⟩)
    rcases hsplit hc with ⟨i, hi', rfl⟩ | hc
    · rcases hsplit hc' with ⟨j, hj, rfl⟩ | hc'
      · have hij : i = j := by
          omega
        rw [hij]
      · have hb := (clusters_bounds hs.2.2 hc').1
        omega
    · rcases hsplit hc' with ⟨j, hj, rfl⟩ | hc'
      · have hb := (clusters_bounds hs.2.2 hc).1
        omega
      · exact ih hs.2.2 hc hc' heq

/-! ### Selection -/

/-- The cluster a hash belongs into. -/
def Selects (fs : Filesys) (recs : List ExtentRec) (hash : Nat) (c : Nat × Nat) : Prop :=
  c ∈ clusters fs recs ∧ c.1 ≤ hash ∧ ∀ c' ∈ clusters fs recs, c'.1 ≤ hash → c'.1 ≤ c.1

theorem Selects.unique (hs : Shape fs recs) (h : Selects fs recs hash c)
    (h' : Selects fs recs hash c') : c = c' := by
  apply clusters_inj hs.spaced h.1 h'.1
  exact le_antisymm (h'.2.2 c h.1 h.2.1) (h.2.2 c' h'.1 h'.2.1)

/-- The record has several clusters and ends where 32 bits do. -/
def Wraps (r : ExtentRec) : Prop := 1 < r.eLeafClusters ∧ r.eCpos + r.eLeafClusters = 4294967296

instance (r : ExtentRec) : Decidable (Wraps r) := inferInstanceAs (Decidable (_ ∧ _))

theorem Shape.mem_bounds (hs : Shape fs recs) (hr : r ∈ recs) :
    0 < r.eLeafClusters ∧ r.eCpos + r.eLeafClusters ≤ 4294967296 :=
  (hs.spaced.mem_bounds r hr).2

theorem Shape.floor_some (hs : Shape fs recs) (hash : Nat) : ∃ r, floorRec hash recs = some r := by
  obtain ⟨r, hr, h0⟩ := hs.first
  cases hf : floorRec hash recs with
  | none =>
    have := floorRec_eq_none.mp hf r hr
    omega
  | some r => exact ⟨r, rfl⟩

theorem floorRec_eq (h : floorRec hash recs = some r) :
    ∃ before behind, recs = before ++ r :: behind ∧ r.eCpos ≤ hash ∧
      ∀ r' ∈ behind, hash < r'.eCpos := by
  obtain ⟨hle, as, bs, heq, hnot⟩ := find?_eq_some_iff_append.mp h
  refine ⟨bs.reverse, as.reverse, ?_, by simpa using hle, fun x hx => ?_⟩
  · rw [← reverse_reverse recs, heq]
    simp
  · simpa using hnot x (mem_reverse.mp hx)

theorem clusterIn_eq (hpos : 0 < r.eLeafClusters) (hend : r.eCpos + r.eLeafClusters ≤ 4294967296)
    (hle : r.eCpos ≤ hash) (hlt : hash < 4294967296) :
    clusterIn r hash = if Wraps r then r.eLeafClusters - 1
      else min (hash - r.eCpos) (r.eLeafClusters - 1) := by
  unfold clusterIn addW
  by_cases hend' : r.eCpos + r.eLeafClusters = 4294967296
  · have h0 : (r.eCpos + r.eLeafClusters) % 2 ^ 32 = 0 := by omega
    rw [h0, if_pos (Nat.zero_le _)]
    by_cases hw : Wraps r
    · rw [if_pos hw]
    · have hone : ¬1 < r.eLeafClusters := fun h => hw ⟨h, hend'⟩
      rw [if_neg hw]
      omega
  · have hw : ¬Wraps r := fun h => hend' h.2
    split
    · omega
    · omega

/-! ### The lookup -/

/-- A tree of records in order, whose extent blocks can be read. -/
structure TreeOk (fs : Filesys) (ix : Index) : Prop where
  depth : ix.drList.lTreeDepth < maxPathDepth
  tree : ∃ ks, readKids ix.st.dev.ebs ix.drList.lTreeDepth ix.drList = some ks ∧
    (∀ b ∈ treeBlocks ix.drList.lTreeDepth ks, outOfRange fs b = false) ∧
    HashTree ix.drList.lTreeDepth true 0 4294967296 ix.drList ks
  shape : Shape fs ix.recs

/-- **`ocfs2_dx_dir_lookup_rec` finds the last record at or below the hash.** -/
theorem TreeOk.lookupRec (h : TreeOk fs ix) (hash : Nat) :
    ∃ r, floorRec hash ix.recs = some r ∧ dxDirLookupRec fs hash ix = some (.ok r, ix) := by
  obtain ⟨r, hr⟩ := h.shape.floor_some hash
  refine ⟨r, hr, ?_⟩
  -- the list that is looked in has the same floor as the tree, behind an empty record at most
  obtain ⟨el, hlist, hfloor⟩ : ∃ el, lookupList fs hash ix = some (.ok el, ix) ∧
      floorRec hash el.live = some r := by
    obtain ⟨ks, hread, hrange, htree⟩ := h.tree
    have hrecs : ix.recs = treeRecs ix.drList.lTreeDepth ix.drList ks := by
      simp only [Index.recs, diskRecs, hread]
    have hdepth := h.depth
    rw [hrecs] at hr
    rw [lookupList, bind_ok (get_run ix)]
    cases hd : ix.drList.lTreeDepth with
    | zero =>
      rw [hd] at htree hr
      obtain rfl : ks = [] := htree.2.2.1
      refine ⟨ix.drList, if_pos rfl ▸ rfl, ?_⟩
      have hr : floorRec hash ix.drList.nonempty = some r := hr
      rw [htree.floor_live, hr]
      rfl
    | succ d =>
      rw [hd] at htree hr hread hrange hdepth
      obtain ⟨eb, _, _, _, hfind, hleaf, hfl⟩ := htree.findLeaf (h := hash) hread hrange hdepth
      have hfind' : onTree (treeFindLeaf fs ix.drList hash) ix = some (.ok eb, ix) := by
        rw [onTree, hfind]
      refine ⟨eb.hList, ?_, ?_⟩
      · rw [if_neg (Nat.succ_ne_zero d), bind_ok hfind', if_pos hleaf.depth]
        rfl
      · rw [hleaf.floor_live, ← hfl, hr]
        rfl
  rw [dxDirLookupRec, bind_ok hlist, hfloor]
  rfl

theorem Shape.selects_floor (hs : Shape fs recs) (hf : floorRec hash recs = some r)
    (hlt : hash < 4294967296) (hw : ¬Wraps r) :
    Selects fs recs hash (r.eCpos + clusterIn r hash,
      r.eBlkno + clustersToBlocks fs (clusterIn r hash)) := by
  obtain ⟨before, behind, heq, hle, hbehind⟩ := floorRec_eq hf
  have hmem : r ∈ recs := heq ▸ mem_append_right _ mem_cons_self
  obtain ⟨hpos, hend⟩ := hs.mem_bounds hmem
  rw [clusterIn_eq hpos hend hle hlt, if_neg hw]
  refine ⟨mem_clusters.mpr ⟨r, hmem, _, by omega, rfl⟩, by omega, ?_⟩
  -- a cluster in front of the record is lower, one behind it too high
  intro c' hc' hle'
  obtain ⟨r', hr', i, hi, rfl⟩ := mem_clusters.mp hc'
  rw [heq] at hr'
  rcases mem_append.mp hr' with hr' | hr'
  · have hsp := hs.spaced
    rw [heq] at hsp
    obtain ⟨m, h1, h2⟩ := spaced_append.mp hsp
    have hb := (h1.mem_bounds r' hr').2.2
    have hm : m ≤ r.eCpos := h2.1
    omega
  · rcases mem_cons.mp hr' with rfl | hr'
    · omega
    · have := hbehind r' hr'
      omega

/-- What a lookup finds: the cluster that the hash belongs into, unless the record it falls
    into wraps around. -/
theorem TreeOk.lookup (ht : TreeOk fs ix) (h : Hinfo) (hlt : h.majorHash < 4294967296) :
    ∃ r, floorRec h.majorHash ix.recs = some r ∧ ∃ c ∈ clusters fs ix.recs,
      dxDirLookup fs h ix = some (.ok (c.1, c.2 + dxDirHashIdx fs h.minorHash), ix) ∧
      ((¬Wraps r ∧ Selects fs ix.recs h.majorHash c) ∨ (Wraps r ∧ c.1 = 4294967295)) := by
  obtain ⟨r, hr, hrun⟩ := ht.lookupRec h.majorHash
  obtain ⟨before, behind, heq, hle, -⟩ := floorRec_eq hr
  have hmem : r ∈ ix.recs := heq ▸ mem_append_right _ mem_cons_self
  obtain ⟨hpos, hend⟩ := ht.shape.mem_bounds hmem
  have hin := clusterIn_eq hpos hend hle hlt
  refine ⟨r, hr, (r.eCpos + clusterIn r h.majorHash,
    r.eBlkno + clustersToBlocks fs (clusterIn r h.majorHash)), ?_, ?_, ?_⟩
  · refine mem_clusters.mpr ⟨r, hmem, clusterIn r h.majorHash, ?_, rfl⟩
    rw [hin]
    split <;> omega
  · rw [dxDirLookup, bind_ok hrun]
    rfl
  · by_cases hw : Wraps r
    · refine .inr ⟨hw, ?_⟩
      have := hw.2
      rw [hin, if_pos hw]
      omega
    · exact .inl ⟨hw, ht.shape.selects_floor hr hlt hw⟩

end Ocfs2Tools.DxDir
