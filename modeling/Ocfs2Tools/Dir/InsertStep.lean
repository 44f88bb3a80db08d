import Ocfs2Tools.Dir.Entries
import Ocfs2Tools.Dir.Insert

/-!
# One insertion into the index

`Holds fs ix log` is an index with leaves whose entries are those of `log`. Finding space,
putting the entry into the leaf, and expanding an inline root each have a lemma that says
what they do to it.
-/

namespace Ocfs2Tools.DxDir

open List Prog

variable {fs : Filesys} {env : Env} {ix ix' : Index} {h : Hinfo} {c : Nat × Nat}
  {leaf : DxLeaf} {split start blk : Nat} {log es : List DxEntry} {e : DxEntry} {s : St}

/-! ### An index with leaves -/

structure Holds (fs : Filesys) (ix : Index) (log : List DxEntry) : Prop where
  wf : WfIndex fs ix
  entries : (ix.entries fs).Perm log

theorem Holds.after_split (hh : Holds fs ix log) (hd : Done fs ix h c leaf split start s) :
    Holds fs (splitIndex fs ix c.2 split start s) log :=
  ⟨hd.wf hh.wf, (hd.entries_perm hh.wf).trans hh.entries⟩

/-! ### Finding space -/

/-- Where an entry with this hash goes: the leaf it selects, which has room. -/
structure Spot (fs : Filesys) (ix : Index) (h : Hinfo) (blk : Nat) (c : Nat × Nat) (leaf : DxLeaf) :
    Prop where
  sel : Selects fs ix.recs h.majorHash c
  at_blk : blk = c.2 + dxDirHashIdx fs h.minorHash
  leafAt : ix.leaves blk = some leaf
  room : leaf.dlList.full = false

theorem WfIndex.look (hix : WfIndex fs ix) (hlt : h.majorHash < 4294967296) :
    ∃ c leaf, Selects fs ix.recs h.majorHash c ∧
      ix.leaves (c.2 + dxDirHashIdx fs h.minorHash) = some leaf ∧
      dxDirLookup fs h ix = some (.ok (c.1, c.2 + dxDirHashIdx fs h.minorHash), ix) := by
  obtain ⟨c, hsel, hlook⟩ := hix.lookup h hlt
  obtain ⟨leaf, hleaf, _⟩ := hix.leaf c hsel.1 _ (dxDirHashIdx_lt fs h.minorHash)
  exact ⟨c, leaf, hsel, hleaf, hlook⟩

theorem findDirSpaceDx_spot (henv : env.Ok fs) (hh : Holds fs ix log) (htakes : Takes ix)
    (hlt : h.majorHash < uint32Max) (hrun : findDirSpaceDx env fs h ix = some (.ok blk, ix')) :
    Holds fs ix' log ∧ ix'.root.drNumEntries = ix.root.drNumEntries ∧
      ∃ c leaf, Spot fs ix' h blk c leaf := by
  have hlt' : h.majorHash < 4294967296 := lt_of_lt_of_le hlt (by decide)
  obtain ⟨c, leaf, hsel, hleaf, hlook⟩ := hh.wf.look hlt'
  by_cases hfull : leaf.dlList.full = true
  · rw [findDirSpaceDx_full hlook hleaf hfull] at hrun
    obtain ⟨_, ix₁, hreb, hrun⟩ := bind_eq_ok hrun
    have hcases := dxDirRebalance_run henv hh.wf htakes hlt hsel hleaf hfull
    rw [hreb] at hcases
    cases hcases with
    | done split start s picked spec cluster insert list perm =>
      obtain ⟨hdvd, -, -, hfresh⟩ := henv ix start cluster
      have hh' := hh.after_split ⟨hlt, hsel, hleaf, hfull, spec, hdvd, hfresh, list, perm⟩
      obtain ⟨c', leaf', hsel', hleaf', hlook'⟩ := hh'.wf.look hlt'
      rw [bind_ok (restartSearch_run hlook' hleaf')] at hrun
      split at hrun
      · cases hrun
      · next hfull' =>
        cases hrun
        exact ⟨hh', rfl, c', leaf', hsel', rfl, hleaf', by simpa using hfull'⟩
  · rw [findDirSpaceDx, bind_ok (restartSearch_run hlook hleaf)] at hrun
    rw [if_neg hfull] at hrun
    cases hrun
    exact ⟨hh, rfl, c, leaf, hsel, rfl, hleaf, by simpa using hfull⟩

/-! ### Putting the entry into its leaf -/

def insertedIndex (ix : Index) (leaf : DxLeaf) (e : DxEntry) : Index where
  root := { ix.root with drNumEntries := addW 32 ix.root.drNumEntries 1 }
  st := ix.st
  leaves := writeDxLeaf ix.leaves leaf.dlBlkno
    { leaf with dlList := dxEntryListInsert leaf.dlList e.dxHash e.dxDirentBlk }

section
variable (hix : WfIndex fs ix) (hs : Spot fs ix e.dxHash blk c leaf)
include hix hs

variable {b : Nat}

theorem Spot.blkno : leaf.dlBlkno = blk ∧ leaf.dlList.deCount = dxEntriesPerLeaf fs := by
  obtain ⟨leaf', hleaf', hblk, hcount, _⟩ :=
    hix.leaf c hs.sel.1 _ (dxDirHashIdx_lt fs e.dxHash.minorHash)
  rw [← hs.at_blk, hs.leafAt] at hleaf'
  cases hleaf'
  exact ⟨hblk.trans hs.at_blk.symm, hcount⟩

theorem Spot.leaves_self : (insertedIndex ix leaf e).leaves blk =
    some ⟨blk, ⟨leaf.dlList.deCount, leaf.dlList.deEntries ++ [e]⟩⟩ := by
  have hblk := (hs.blkno hix).1
  unfold insertedIndex writeDxLeaf
  dsimp only
  rw [if_pos hblk.symm, hblk]
  rfl

theorem Spot.leaves_other (hne : b ≠ blk) : (insertedIndex ix leaf e).leaves b = ix.leaves b := by
  rw [← (hs.blkno hix).1] at hne
  exact if_neg hne

theorem Spot.entriesAt_self :
    (insertedIndex ix leaf e).entriesAt blk = ix.entriesAt blk ++ [e] := by
  rw [Index.entriesAt, hs.leaves_self hix, Index.entriesAt, hs.leafAt]

theorem Spot.entriesAt_other (hne : b ≠ blk) :
    (insertedIndex ix leaf e).entriesAt b = ix.entriesAt b := by
  rw [Index.entriesAt, hs.leaves_other hix hne, Index.entriesAt]

theorem Spot.insert_wf (hlt : e.major < uint32Max) : WfIndex fs (insertedIndex ix leaf e) where
  tree := hix.tree
  list := hix.list
  first := hix.first
  apart := hix.apart
  leaf := by
    intro x hx i hi
    by_cases hb : x.2 + i = blk
    · rw [hb]
      refine ⟨_, hs.leaves_self hix, rfl, (hs.blkno hix).2, ?_⟩
      have hroom := full_eq_false.mp hs.room
      rw [(hs.blkno hix).2] at hroom
      rw [EntryList.deNumUsed, length_append]
      exact hroom
    · rw [hs.leaves_other hix hb]
      exact hix.leaf x hx i hi
  placed := by
    intro x hx i hi a ha
    by_cases hb : x.2 + i = blk
    · rw [hb, hs.entriesAt_self hix, ← hb] at ha
      rcases mem_append.mp ha with ha | ha
      · exact hix.placed x hx i hi a ha
      · -- the new entry: its leaf is one of the cluster it selects
        obtain rfl := mem_singleton.mp ha
        rw [hs.at_blk] at hb
        obtain ⟨hxc, hij⟩ := aligned_apart (hix.shape.aligned hx).1 (hix.shape.aligned hs.sel.1).1
          hi (dxDirHashIdx_lt fs a.dxHash.minorHash) hb
        rw [hix.apart x hx c hs.sel.1 hxc]
        exact ⟨hij.symm, hs.sel, hlt⟩
    · rw [hs.entriesAt_other hix hb] at ha
      exact hix.placed x hx i hi a ha

theorem Spot.entries_perm : ((insertedIndex ix leaf e).entries fs).Perm (e :: ix.entries fs) := by
  rw [@entries_eq fs (insertedIndex ix leaf e) hix.tree, entries_eq hix.tree]
  have hidx := dxDirHashIdx_lt fs e.dxHash.minorHash
  refine perm_flatMap_update (clusters_nodup hix.shape.spaced) hs.sel.1 ?_ ?_
  · refine perm_flatMap_update nodup_range (mem_range.mpr hidx) ?_ ?_
    · rw [← hs.at_blk, hs.entriesAt_self hix]
      exact perm_append_singleton e _
    · intro i _ hne
      apply hs.entriesAt_other hix
      rw [hs.at_blk]
      omega
  · intro x hx hne
    apply flatMap_congr
    intro i hi
    apply hs.entriesAt_other hix
    rw [hs.at_blk]
    intro heq
    have := (aligned_apart (hix.shape.aligned hx).1 (hix.shape.aligned hs.sel.1).1
      (mem_range.mp hi) hidx heq).1
    exact hne (hix.apart x hx c hs.sel.1 this)

end

theorem insertIntoTree_holds (henv : env.Ok fs) (hh : Holds fs ix log) (htakes : Takes ix)
    (hlt : e.major < uint32Max)
    (hrun : insertIntoTree env fs e.dxHash e.dxDirentBlk ix = some (.ok (), ix')) :
    Holds fs ix' (log ++ [e]) ∧ ix'.root.drNumEntries = addW 32 ix.root.drNumEntries 1 := by
  obtain ⟨blk, ix₁, hfind, hrun⟩ := bind_eq_ok hrun
  obtain ⟨hh₁, hnum, c, leaf, hspot⟩ := findDirSpaceDx_spot henv hh htakes hlt hfind
  rw [bind_ok (readDxLeaf_run hspot.leafAt)] at hrun
  have hix' : insertedIndex ix₁ leaf e = ix' := by
    cases hrun
    rfl
  rw [← hix']
  refine ⟨⟨hspot.insert_wf hh₁.wf hlt, ?_⟩, ?_⟩
  · refine (hspot.entries_perm hh₁.wf).trans ?_
    exact (hh₁.entries.cons e).trans (perm_append_singleton e log).symm
  · rw [← hnum]
    rfl

/-! ### Expanding an inline root -/

/-- An inline root with the entries `log`. -/
structure InRoot (fs : Filesys) (ix : Index) (log : List DxEntry) : Prop where
  inline : ix.root.inline = true
  entries : ix.root.drEntries = ⟨dxEntriesPerRoot fs, log⟩
  fits : log.length ≤ dxEntriesPerRoot fs

theorem transferEntries_getElem? (es ls) (i : Nat) :
    (transferEntries fs es ls)[i]? = ls[i]?.map fun leaf => ⟨leaf.dlBlkno, ⟨leaf.dlList.deCount,
      leaf.dlList.deEntries ++ es.filter fun e => dxDirHashIdx fs e.minor = i⟩⟩ := by
  induction es generalizing ls i with
  | nil =>
    rw [transferEntries]
    cases ls[i]? with
    | none => rfl
    | some leaf => simp
  | cons a es ih =>
    rw [transferEntries, ih, getElem?_modify]
    cases ls[i]? with
    | none => rfl
    | some leaf =>
      by_cases hi : dxDirHashIdx fs a.minor = i
      · simp [hi, dxDirLeafInsertTail]
      · simp [hi]

theorem transferEntries_length (es ls) : (transferEntries fs es ls).length = ls.length := by
  induction es generalizing ls with
  | nil => rfl
  | cons a es ih => rw [transferEntries, ih, length_modify]

theorem writeDxLeaves_eq (ls start leaves b)
    (hblk : (∀ k leaf, ls[k]? = some leaf → leaf.dlBlkno = start + k)) :
    writeDxLeaves ls leaves b = if start ≤ b ∧ b < start + ls.length then ls[b - start]? else leaves
      b := by
  induction ls generalizing start leaves b with
  | nil => rw [writeDxLeaves, if_neg (by simp only [length_nil]; omega)]
  | cons leaf ls ih =>
    have h0 : leaf.dlBlkno = start := hblk 0 leaf rfl
    rw [writeDxLeaves, ih (start + 1) _ b, length_cons, h0]
    · by_cases hb : b = start
      · rw [if_neg (by omega), if_pos (by omega), hb, Nat.sub_self, writeDxLeaf, if_pos rfl]
        rfl
      · by_cases hin : start ≤ b ∧ b < start + (ls.length + 1)
        · obtain ⟨k, rfl⟩ : ∃ k, b = start + 1 + k := ⟨b - start - 1, by omega⟩
          rw [if_pos (by omega), if_pos hin, Nat.add_sub_cancel_left,
            show start + 1 + k - start = k + 1 by omega, getElem?_cons_succ]
        · rw [if_neg (by omega), if_neg hin, writeDxLeaf, if_neg hb]
    · intro k lf hlf
      rw [hblk (k + 1) lf (by exact hlf)]
      omega

/-- The index after the entries `es` of its root were dealt out to a cluster at `start`; the extent
    tree code left `s`. -/
def expandedIndex (fs : Filesys) (ix : Index) (start : Nat) (s : St) (es : List DxEntry) :
    Index where
  root := ⟨false, ix.root.drNumEntries, ⟨0, []⟩⟩
  st := s
  leaves := fun b =>
    if start ≤ b ∧ b < start + fs.bpc then
      some ⟨b, ⟨dxEntriesPerLeaf fs, es.filter fun e => dxDirHashIdx fs e.minor = b - start⟩⟩
    else ix.leaves b

theorem expandedLeaves_eq (start : Nat) (s : St) (es : List DxEntry) :
    writeDxLeaves (transferEntries fs es (formattedLeaves fs start fs.bpc))
        (dxDirFormatCluster fs start fs.bpc ix.leaves) =
      (expandedIndex fs ix start s es).leaves := by
  funext b
  have hget : ∀ k, k < fs.bpc →
      (transferEntries fs es (formattedLeaves fs start fs.bpc))[k]? = some ⟨start + k,
        ⟨dxEntriesPerLeaf fs, es.filter fun e => dxDirHashIdx fs e.minor = k⟩⟩ := by
    intro k hk
    rw [transferEntries_getElem?, formattedLeaves_getElem? fs hk]
    rfl
  have hlen : (transferEntries fs es (formattedLeaves fs start fs.bpc)).length = fs.bpc := by
    rw [transferEntries_length, formattedLeaves, length_map, length_range]
  rw [writeDxLeaves_eq _ start, hlen]
  · unfold expandedIndex
    dsimp only
    split
    · next hb =>
      rw [hget (b - start) (by omega), Nat.add_sub_cancel' hb.1]
    · next hb =>
      rw [dxDirFormatCluster_eq, if_neg hb]
  · intro k lf hlf
    have hk : k < fs.bpc := by
      rw [← hlen]
      exact (List.getElem?_eq_some_iff.mp hlf).1
    rw [hget k hk] at hlf
    cases hlf
    rfl

theorem cleared_st (fs : Filesys) (ls : Nat → Option DxLeaf) :
    (Index.cleared fs ⟨ix.root, ls, ix.st⟩).st = (ix.cleared fs).st :=
  rfl

theorem expandInlineDxRoot_run (hrun : expandInlineDxRoot env fs ix = some (.ok (), ix')) :
    ∃ start s, env.newCluster ix = some start ∧
      treeInsertExtent fs 0 start 1 0 (ix.cleared fs).st = some (.ok (), s) ∧
      ix' = expandedIndex fs ix start s ix.root.drEntries.deEntries := by
  rw [expandInlineDxRoot, bind_ok (get_run ix)] at hrun
  cases hcl : env.newCluster ix with
  | none =>
    rw [hcl] at hrun
    cases hrun
  | some start =>
    rw [hcl] at hrun
    dsimp only at hrun
    rw [bind_ok (modify_run _ _), bind_ok (modify_run _ _), bind_ok (modify_run _ _),
      insertCluster, onTree] at hrun
    dsimp only at hrun
    rw [cleared_st] at hrun
    cases hins : treeInsertExtent fs 0 start 1 0 (ix.cleared fs).st with
    | none =>
      rw [hins] at hrun
      cases hrun
    | some p =>
      obtain ⟨r, s⟩ := p
      rw [hins] at hrun
      cases hrun
      refine ⟨start, s, rfl, hins, ?_⟩
      unfold Index.cleared
      dsimp only
      rw [expandedLeaves_eq start s]
      rfl

theorem expanded_entriesAt {i : Nat} (hi : i < fs.bpc) :
    (expandedIndex fs ix start s es).entriesAt (start + i) =
      es.filter fun e => dxDirHashIdx fs e.minor = i := by
  have hleaf : (expandedIndex fs ix start s es).leaves (start + i) = some ⟨start + i,
      ⟨dxEntriesPerLeaf fs, es.filter fun e => dxDirHashIdx fs e.minor = start + i - start⟩⟩ :=
    if_pos (by omega)
  rw [Index.entriesAt, hleaf, Nat.add_sub_cancel_left]

theorem dxEntriesPerRoot_le (fs : Filesys) : dxEntriesPerRoot fs ≤ dxEntriesPerLeaf fs := by
  unfold dxEntriesPerRoot dxEntriesPerLeaf
  omega

theorem length_clusters (fs : Filesys) {recs : List ExtentRec} {r : ExtentRec} (hr : r ∈ recs) :
    r.eLeafClusters ≤ (clusters fs recs).length := by
  obtain ⟨as, bs, rfl⟩ := append_of_mem hr
  rw [clusters_append, clusters_cons]
  simp only [length_append, length_map, length_range]
  omega

theorem extentRecsPerDxRoot_ge (fs : Filesys) : 2 ≤ extentRecsPerDxRoot fs := by
  have := fs.fsBlocksize_ge
  unfold extentRecsPerDxRoot
  omega

theorem InRoot.expanded_holds (hir : InRoot fs ix log) (hlog : ∀ e ∈ log, e.major < uint32Max)
    (henv : env.Ok fs) (hcl : env.newCluster ix = some start)
    (hins : treeInsertExtent fs 0 start 1 0 (ix.cleared fs).st = some (.ok (), s)) :
    Holds fs (expandedIndex fs ix start s log) log ∧ Takes (expandedIndex fs ix start s log) := by
  obtain ⟨hdvd, hne, hbound, -⟩ := henv ix start hcl
  have hge := extentRecsPerDxRoot_ge fs
  have hcount : (ix.cleared fs).st.root.iList.lCount = extentRecsPerDxRoot fs := length_replicate
  have hempty : (ix.cleared fs).st.root.iList.nonempty = [] := by
    simp [Index.cleared, ExtentList.nonempty, ExtentList.live]
  have hok : LeafOk fs 0 uint32Max (ix.cleared fs).st.root.iList :=
    ⟨rfl, Nat.zero_le _, show 0 ≤ uint32Max by decide, fun _ h => absurd h not_mem_nil⟩
  rcases treeInsertExtent_cluster hok (hcount.symm ▸ show 0 < extentRecsPerDxRoot fs by omega)
    (by rw [hempty]; exact forall_mem_nil _) (show 0 < uint32Max by decide)
      (by rw [hempty]; exact forall_mem_nil _) hdvd hne hbound with
    ⟨e, t, herr, -⟩ | ⟨t, hrun, hlist, hlc, hnext, hperm⟩
  · rw [hins] at herr
    cases herr
  rw [hins] at hrun
  cases hrun
  rw [hempty] at hperm
  have hcl : clusters fs s.root.iList.nonempty = [(0, start)] := perm_singleton.mp hperm
  have hrecs : (expandedIndex fs ix start s log).recs = s.root.iList.nonempty :=
    recs_eq hlist.depth
  have hmem : ∀ {x}, x ∈ clusters fs (expandedIndex fs ix start s log).recs → x = (0, start) := by
    intro x hx
    rw [hrecs, hcl] at hx
    exact mem_singleton.mp hx
  have hfirst : ∃ r ∈ s.root.iList.nonempty, r.eCpos = 0 := by
    obtain ⟨r, hr, i, -, heq⟩ := mem_clusters.mp (hcl ▸ mem_singleton.mpr rfl :
      (0, start) ∈ clusters fs s.root.iList.nonempty)
    have := congrArg Prod.fst heq
    exact ⟨r, hr, by omega⟩
  refine ⟨⟨⟨rfl, hlist, hrecs.symm ▸ hfirst, ?_, ?_, ?_⟩, ?_⟩, ?_, ?_⟩
  · intro x hx y hy _
    rw [hmem hx, hmem hy]
  · intro x hx i hi
    rw [hmem hx]
    refine ⟨_, if_pos ⟨Nat.le_add_right _ _, by omega⟩, rfl, rfl, ?_⟩
    exact le_trans (length_filter_le _ _) (le_trans hir.fits (dxEntriesPerRoot_le fs))
  · intro x hx i hi a ha
    rw [hmem hx] at ha ⊢
    rw [expanded_entriesAt hi] at ha
    obtain ⟨ha, hidx⟩ := mem_filter.mp ha
    refine ⟨by simpa using hidx, ⟨?_, Nat.zero_le _, ?_⟩, hlog a ha⟩
    · rw [hmem hx] at hx
      exact hx
    · intro y hy _
      rw [hmem hy]
  · rw [@entries_eq fs (expandedIndex fs ix start s log) rfl, hrecs, hcl, flatMap_singleton]
    have hin : (expandedIndex fs ix start s log).entriesIn fs start =
        (List.range fs.bpc).flatMap fun i => log.filter fun e => dxDirHashIdx fs e.minor = i := by
      apply flatMap_congr
      intro i hi
      exact expanded_entriesAt (mem_range.mp hi)
    rw [hin]
    exact perm_flatMap_filter nodup_range _ fun e _ =>
      mem_range.mpr (dxDirHashIdx_lt fs e.minor)
  · show s.root.iList.lNextFreeRec < s.root.iList.lCount
    have hnext : s.root.iList.lNextFreeRec ≤ 0 + 1 := hnext
    omega
  · intro r hr
    have := length_clusters fs (hrecs ▸ hr)
    rw [hcl, length_singleton] at this
    omega

end Ocfs2Tools.DxDir
