import Ocfs2Tools.Dir.SplitRoom
import Ocfs2Tools.Lib.Buckets

/-!
# The entries of an index, cluster by cluster

What a split and an insertion do to the entries as a whole: a split moves them around, an
insertion adds one. With this the index stays well formed.
-/

namespace Ocfs2Tools.DxDir

open List

variable {fs : Filesys} {ix : Index} {h : Hinfo} {c c' : Nat × Nat}
  {leaf : DxLeaf} {split start : Nat} {s : St}

/-! ### Entries by cluster -/

theorem entries_eq (htree : ix.root.inline = false) :
    ix.entries fs = (clusters fs ix.recs).flatMap fun c => ix.entriesIn fs c.2 := by
  rw [Index.entries, htree]
  rfl

theorem clusters_nodup {hi : Nat} {recs : List ExtentRec} {lo : Nat}
    (hs : Spaced ExtentRec.eCpos ExtentRec.eLeafClusters lo recs hi) :
    (clusters fs recs).Nodup := by
  induction recs generalizing lo with
  | nil => exact nodup_nil
  | cons r rest ih =>
    refine nodup_append.mpr ⟨?_, ih hs.2.2, ?_⟩
    · apply List.Nodup.map ?_ nodup_range
      intro i j heq
      have := congrArg Prod.fst heq
      dsimp only at this
      omega
    · intro x hx y hy heq
      obtain ⟨i, hi', rfl⟩ := mem_map.mp hx
      have hb := (clusters_bounds hs.2.2 hy).1
      rw [← heq] at hb
      have hlt := mem_range.mp hi'
      omega

/-! ### A split keeps the index well formed -/

section
variable (hix : WfIndex fs ix) (hd : Done fs ix h c leaf split start s)
include hix hd

variable {i hash : Nat}

theorem Done.cluster_cases {x : Nat × Nat} (hx : x ∈ clusters fs s.root.iList.nonempty) :
    x = (split, start) ∨ x = c ∨
      (x ∈ clusters fs ix.recs ∧ x ≠ c ∧ x.2 ≠ c.2 ∧ x.2 ≠ start) := by
  rcases (mem_clusters_split hd.perm).mp hx with rfl | hold
  · exact .inl rfl
  · by_cases hxc : x = c
    · exact .inr (.inl hxc)
    · exact .inr (.inr ⟨hold, hxc, fun heq => hxc (hix.apart x hold c hd.sel.1 heq),
        hd.fresh x hold⟩)

theorem Done.leaf_new (hi : i < fs.bpc) :
    (splitIndex fs ix c.2 split start s).leaves (start + i) =
      some (takeFrom fs split (start + i) (ix.entriesAt (c.2 + i))) := by
  obtain ⟨lf, hlf, _⟩ := hix.leaf c hd.sel.1 i hi
  rw [Index.entriesAt, hlf]
  exact splitIndex_new (hix.shape.aligned hd.sel.1).1 hd.aligned (hd.fresh c hd.sel.1) hi hlf

theorem Done.leaf_other (hx : c' ∈ clusters fs ix.recs) (hne : c'.2 ≠ c.2)
    (hne' : c'.2 ≠ start) (hi : i < fs.bpc) :
    (splitIndex fs ix c.2 split start s).leaves (c'.2 + i) = ix.leaves (c'.2 + i) :=
  splitIndex_other (hix.shape.aligned hd.sel.1).1 hd.aligned (hix.shape.aligned hx).1 hne hne' hi

theorem Done.entriesAt_new (hi : i < fs.bpc) :
    (splitIndex fs ix c.2 split start s).entriesAt (start + i) =
      (ix.entriesAt (c.2 + i)).filter fun e => split ≤ e.major := by
  rw [Index.entriesAt, hd.leaf_new hix hi]
  rfl

theorem Done.entriesAt_old (hi : i < fs.bpc) :
    (splitIndex fs ix c.2 split start s).entriesAt (c.2 + i) =
      (ix.entriesAt (c.2 + i)).filter fun e => e.major < split := by
  obtain ⟨lf, hlf, _⟩ := hix.leaf c hd.sel.1 i hi
  rw [Index.entriesAt, splitIndex_old hi hlf, Index.entriesAt, hlf]
  rfl

theorem Done.entriesAt_other (hx : c' ∈ clusters fs ix.recs) (hne : c'.2 ≠ c.2)
    (hne' : c'.2 ≠ start) (hi : i < fs.bpc) :
    (splitIndex fs ix c.2 split start s).entriesAt (c'.2 + i) = ix.entriesAt (c'.2 + i) := by
  rw [Index.entriesAt, hd.leaf_other hix hx hne hne' hi, Index.entriesAt]

omit hix in
theorem Done.selects_kept (hsel : Selects fs ix.recs hash c')
    (hkept : split ≤ hash → split ≤ c'.1) : Selects fs s.root.iList.nonempty hash c' := by
  refine ⟨(mem_clusters_split hd.perm).mpr (.inr hsel.1), hsel.2.1, ?_⟩
  intro x hx hle
  rcases (mem_clusters_split hd.perm).mp hx with rfl | hold
  · exact hkept hle
  · exact hsel.2.2 x hold hle

omit hix in
theorem Done.selects_taken (hsel : Selects fs ix.recs hash c) (hle : split ≤ hash) :
    Selects fs s.root.iList.nonempty hash (split, start) := by
  refine ⟨(mem_clusters_split hd.perm).mpr (.inl rfl), hle, ?_⟩
  intro x hx hxle
  rcases (mem_clusters_split hd.perm).mp hx with rfl | hold
  · exact le_refl _
  · have habove := hd.spec.above
    have hxc := hsel.2.2 x hold hxle
    omega

theorem Done.other_side (hx : c' ∈ clusters fs ix.recs) (hne : c' ≠ c)
    (hsel : Selects fs ix.recs hash c') : split ≤ hash → split ≤ c'.1 := by
  by_contra hlt
  have habove := hd.spec.above
  have hge : c.1 ≤ c'.1 := hsel.2.2 c hd.sel.1 (by omega)
  have hle' : c'.1 ≤ c.1 := split_between hd.sel (fun e he => (hix.entries_bounds hd.sel.1
    (dxDirHashIdx_lt fs h.minorHash) hd.leafAt e he).1) hd.spec c' hx (by omega)
  exact hne (clusters_inj hix.shape.spaced hx hd.sel.1 (le_antisymm hle' hge))

theorem Done.apart : ∀ x ∈ clusters fs s.root.iList.nonempty,
    ∀ y ∈ clusters fs s.root.iList.nonempty, x.2 = y.2 → x = y := by
  intro x hx y hy heq
  rcases (mem_clusters_split hd.perm).mp hx with rfl | hx
  · rcases (mem_clusters_split hd.perm).mp hy with rfl | hy
    · rfl
    · exact absurd heq.symm (hd.fresh y hy)
  · rcases (mem_clusters_split hd.perm).mp hy with rfl | hy
    · exact absurd heq (hd.fresh x hx)
    · exact hix.apart x hx y hy heq

theorem Done.wf : WfIndex fs (splitIndex fs ix c.2 split start s) where
  tree := hix.tree
  list := hd.list
  first := hd.recs_eq ▸ hd.first hix
  apart := hd.recs_eq.symm ▸ hd.apart hix
  leaf := by
    rw [hd.recs_eq]
    intro x hx i hi
    rcases hd.cluster_cases hix hx with rfl | rfl | ⟨hold, _, hne, hne'⟩
    · refine ⟨_, hd.leaf_new hix hi, rfl, rfl, ?_⟩
      obtain ⟨lf, hlf, _, _, hused⟩ := hix.leaf c hd.sel.1 i hi
      rw [Index.entriesAt, hlf]
      exact le_trans (length_filter_le _ _) hused
    · obtain ⟨lf, hlf, hblk, hcount, hused⟩ := hix.leaf x hd.sel.1 i hi
      exact ⟨_, splitIndex_old hi hlf, hblk, hcount, le_trans (length_filter_le _ _) hused⟩
    · rw [hd.leaf_other hix hold hne hne' hi]
      exact hix.leaf x hold i hi
  placed := by
    rw [hd.recs_eq]
    intro x hx i hi e he
    rcases hd.cluster_cases hix hx with rfl | rfl | ⟨hold, hxc, hne, hne'⟩
    · rw [hd.entriesAt_new hix hi] at he
      obtain ⟨he, hle⟩ := mem_filter.mp he
      obtain ⟨hidx, hsel, hlt⟩ := hix.placed c hd.sel.1 i hi e he
      exact ⟨hidx, hd.selects_taken hsel (by simpa using hle), hlt⟩
    · rw [hd.entriesAt_old hix hi] at he
      obtain ⟨he, hlt'⟩ := mem_filter.mp he
      obtain ⟨hidx, hsel, hlt⟩ := hix.placed x hd.sel.1 i hi e he
      have hnot : ¬split ≤ e.major := by simpa using hlt'
      exact ⟨hidx, hd.selects_kept hsel fun hle => absurd hle hnot, hlt⟩
    · rw [hd.entriesAt_other hix hold hne hne' hi] at he
      obtain ⟨hidx, hsel, hlt⟩ := hix.placed x hold i hi e he
      exact ⟨hidx, hd.selects_kept hsel (hd.other_side hix hold hxc hsel), hlt⟩

theorem Done.entries_perm :
    ((splitIndex fs ix c.2 split start s).entries fs).Perm (ix.entries fs) := by
  rw [@entries_eq fs (splitIndex fs ix c.2 split start s) hix.tree, entries_eq hix.tree,
    hd.recs_eq]
  have hcons : (clusters fs ix.recs).Perm (c :: (clusters fs ix.recs).erase c) :=
    perm_cons_erase hd.sel.1
  have hnd := @clusters_nodup fs _ _ _ hix.shape.spaced
  have hperm : (clusters fs s.root.iList.nonempty).Perm
      ((split, start) :: c :: (clusters fs ix.recs).erase c) := hd.perm.trans (hcons.cons _)
  refine (hperm.flatMap_right _).trans (.trans ?_ (hcons.flatMap_right _).symm)
  rw [flatMap_cons, flatMap_cons, ← append_assoc]
  apply List.Perm.append
  · have hnew : (splitIndex fs ix c.2 split start s).entriesIn fs start =
        (List.range fs.bpc).flatMap fun i =>
          (ix.entriesAt (c.2 + i)).filter fun e => split ≤ e.major := by
      apply flatMap_congr
      intro i hi
      exact hd.entriesAt_new hix (mem_range.mp hi)
    have hold : (splitIndex fs ix c.2 split start s).entriesIn fs c.2 =
        (List.range fs.bpc).flatMap fun i =>
          (ix.entriesAt (c.2 + i)).filter fun e => !decide (split ≤ e.major) := by
      apply flatMap_congr
      intro i hi
      rw [hd.entriesAt_old hix (mem_range.mp hi)]
      apply filter_congr
      intro e _
      rw [← decide_not]
      simp only [not_le]
    rw [hnew, hold]
    exact perm_flatMap_split _ _ _
  · -- the other clusters are not touched
    apply List.Perm.of_eq
    apply flatMap_congr
    intro x hx
    have hxc : x ≠ c := fun heq => (List.Nodup.mem_erase_iff hnd).mp hx |>.1 heq
    have hold := mem_of_mem_erase hx
    apply flatMap_congr
    intro i hi
    exact hd.entriesAt_other hix hold (fun heq => hxc (hix.apart x hold c hd.sel.1 heq))
      (hd.fresh x hold) (mem_range.mp hi)

end

end Ocfs2Tools.DxDir
