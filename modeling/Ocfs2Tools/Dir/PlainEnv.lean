import Ocfs2Tools.Dir.Split

/-!
# An environment to run the index code with

The allocator takes the cluster behind the last one of the index, so that the extent tree code
may join the new cluster with the one before. `oneLeafIndex` is an index of one cluster in
which only the first leaf has entries.
-/

namespace Ocfs2Tools.DxDir

open List

variable {fs : Filesys} {recs : List ExtentRec}

def nextCluster (fs : Filesys) (recs : List ExtentRec) : Nat :=
  (((clusters fs recs).map Prod.snd).foldr max 0 / fs.bpc + 1) * fs.bpc

def plainEnv (fs : Filesys) : Env where
  newCluster := fun ix =>
    if nextCluster fs ix.recs / fs.bpc + 1 ≤ uint32Max then some (nextCluster fs ix.recs)
    else none

theorem lt_nextCluster {c : Nat × Nat} (hc : c ∈ clusters fs recs) : c.2 < nextCluster fs recs := by
  have hle : c.2 ≤ ((clusters fs recs).map Prod.snd).foldr max 0 :=
    le_max_of_le' 0 (mem_map_of_mem hc) (le_refl _)
  refine lt_of_le_of_lt hle ?_
  exact Nat.lt_mul_of_div_lt (Nat.lt_succ_self _) fs.bpc_pos

theorem plainEnv_ok (fs : Filesys) : (plainEnv fs).Ok fs := by
  intro ix start hcl
  unfold plainEnv at hcl
  dsimp only at hcl
  split at hcl
  · next hb =>
    cases hcl
    refine ⟨Nat.dvd_mul_left _ _, ?_, hb, ?_⟩
    · exact ne_of_gt (Nat.mul_pos (Nat.succ_pos _) fs.bpc_pos)
    · intro c hc
      exact ne_of_lt (lt_nextCluster hc)
  · cases hcl

/-! ### An index of one cluster -/

/-- Blocks of 512 bytes, eight to a cluster, and so 29 entries to a leaf. -/
def leafFs : Filesys := .smallBlocks 1000

def oneLeafIndex (es : List DxEntry) : Index where
  root := ⟨false, es.length, ⟨0, []⟩⟩
  leaves := fun b =>
    if 8 ≤ b ∧ b < 16 then some ⟨b, ⟨29, if b = 8 then es else []⟩⟩ else none
  st := smallSt [] { smallInode 0 (listOf 0 19 [⟨0, 1, 0, 0, 8⟩]) with iClusters := 1 } []

theorem oneLeaf_clusters (es : List DxEntry) :
    clusters leafFs (oneLeafIndex es).recs = [(0, 8)] := by rfl

theorem oneLeaf_takes (es : List DxEntry) : Takes (oneLeafIndex es) :=
  ⟨show 1 < 19 by decide, show ∀ r ∈ [(⟨0, 1, 0, 0, 8⟩ : ExtentRec)], r.eLeafClusters < 65535 by
    decide⟩

theorem oneLeaf_wf {es : List DxEntry} (hlen : es.length ≤ 29)
    (hes : ∀ e ∈ es, e.minor = 0 ∧ e.major < uint32Max) : WfIndex leafFs (oneLeafIndex es) where
  tree := rfl
  list := show LeafOk leafFs 0 uint32Max (listOf 0 19 [⟨0, 1, 0, 0, 8⟩]) by decide
  first := show ∃ r ∈ [(⟨0, 1, 0, 0, 8⟩ : ExtentRec)], r.eCpos = 0 by decide
  apart := by
    intro c hc c' hc' _
    rw [oneLeaf_clusters] at hc hc'
    rw [mem_singleton.mp hc, mem_singleton.mp hc']
  leaf := by
    intro c hc i hi
    rw [oneLeaf_clusters] at hc
    rw [mem_singleton.mp hc]
    have hi : i < 8 := hi
    refine ⟨⟨8 + i, ⟨29, if 8 + i = 8 then es else []⟩⟩, if_pos (by omega), rfl, rfl, ?_⟩
    split
    · exact hlen
    · exact Nat.zero_le _
  placed := by
    intro c hc i hi e he
    rw [oneLeaf_clusters] at hc
    rw [mem_singleton.mp hc] at he ⊢
    have hi : i < 8 := hi
    have hleaf : (oneLeafIndex es).leaves (8 + i) =
        some ⟨8 + i, ⟨29, if 8 + i = 8 then es else []⟩⟩ := if_pos (by omega)
    rw [Index.entriesAt, hleaf] at he
    dsimp only at he
    split at he
    · next h0 =>
      obtain ⟨hmin, hmaj⟩ := hes e he
      have hi0 : i = 0 := by omega
      refine ⟨?_, ⟨?_, Nat.zero_le _, ?_⟩, hmaj⟩
      · rw [hmin, hi0, dxDirHashIdx, Nat.zero_and]
      · exact oneLeaf_clusters es ▸ mem_singleton.mpr rfl
      · intro x hx _
        rw [oneLeaf_clusters] at hx
        rw [mem_singleton.mp hx]
    · cases he

end Ocfs2Tools.DxDir
