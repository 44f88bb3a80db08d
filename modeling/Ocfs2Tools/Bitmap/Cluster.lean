import Ocfs2Tools.Bitmap.Bits

/-!
# New cluster bitmaps

All the regions of a new cluster bitmap have the same size, also the last one.
-/

namespace Ocfs2Tools.Bitmap

open ChainAlloc (RTree)

/-- There is a region for every bit before `stop` and for no other, and all are clear. -/
structure Cleared (stop : Nat) (l : List Region) : Prop where
  good : Good l
  bits : ∀ x, bitsOf l x = if x < stop then some false else none
  stop : endOf l = stop

theorem Cleared.insert {shape : Nat → RTree} {b : Bitmap} {off n : Nat} (h : Cleared off b.regions)
    (hshape : InOrder shape) (hpos : 0 < n) (hn : n + 7 ≤ intMax) (hoff : off ≤ b.bTotalBits)
    (hwrap : off + n < 2 ^ 64) : ∃ l, Cleared (off + n) l ∧
      insertRegion shape .cluster (allocRegion off 0 n) b = (.ok (), { b with regions := l }) := by
  have hbefore : ∀ r ∈ b.regions, r.stop ≤ off := fun r hr => h.stop ▸ h.good.stop_le hr
  have hgood : Good (b.regions ++ allocRegion off 0 n :: []) :=
    Good.insert ((List.append_nil _).symm ▸ h.good) (allocRegion_ok off hpos hn) hbefore nofun
  have hsame : Same _ (linkRegion true b.bTotalBits b.regions (allocRegion off 0 n) []) :=
    (linkRegion_joined _ _ _).same hgood
  refine ⟨_, ⟨hsame.good, fun x => ?_, ?_⟩,
    insertRegion_eq hshape hgood (List.append_nil _).symm hoff hwrap⟩
  · rw [hsame.bits, bitsOf_append, bitsOf_cons, bitAt_allocRegion, h.bits]
    by_cases h1 : x < off
    · rw [if_pos h1, if_pos (c := x < off + n) (by omega)]
      rfl
    · by_cases h2 : x < off + n
      · rw [if_neg h1, if_pos (by omega), if_pos h2]
        rfl
      · rw [if_neg h1, if_neg (by omega), if_neg h2]
        rfl
  · exact hsame.stop.trans (endOf_concat _ _)

theorem clusterRegions_run {shape : Nat → RTree} (hshape : InOrder shape) {numBits maxBits n : Nat}
    (hn : n = if maxBits < numBits then maxBits else numBits) (hpos : 0 < n)
    (hsmall : n + 7 ≤ intMax) (hnum : numBits < 2 ^ 32) :
    ∀ fuel off b, b.bTotalBits = numBits → Cleared off b.regions → n ∣ off →
      off < numBits + n → numBits < off + fuel →
      ∃ b' stop, clusterRegions shape numBits maxBits fuel off b = .ok b' ∧
        b'.bTotalBits = numBits ∧ Cleared stop b'.regions ∧ n ∣ stop ∧ numBits ≤ stop ∧
        stop < numBits + n := by
  intro fuel
  induction fuel with
  | zero => exact fun off b ht hb hdvd hlt hf => ⟨b, off, rfl, ht, hb, hdvd, by omega, hlt⟩
  | succ fuel ih =>
    intro off b ht hb hdvd hlt hf
    rw [clusterRegions]
    split
    · next hgo =>
      have hmax : intMax < 2 ^ 31 := by decide
      obtain ⟨l, hl, heq⟩ := hb.insert hshape hpos hsmall (by omega) (by omega)
      dsimp only
      rw [← hn, heq]
      exact ih _ _ ht hl (Nat.dvd_add hdvd (Nat.dvd_refl n)) (by omega) (by omega)
    · exact ⟨b, off, rfl, ht, hb, hdvd, by omega, hlt⟩

/-- A region for every cluster and for nothing else, and each of them can be set. -/
structure Covers (shape : Nat → RTree) (clusters : Nat) (b : Bitmap) : Prop where
  disjoint : Sorted b.regions
  bits : ∀ x, bitsOf b.regions x = if x < clusters then some false else none
  test : ∀ x, x < clusters → bitmapTest shape .cluster x b = .ok false
  set : ∀ junk x, x < clusters → ∃ b', bitmapChange shape .cluster junk true x b =
    some (.ok (), b') ∧
    bitmapTest shape .cluster x b' = .ok true

theorem Cleared.covers {shape : Nat → RTree} {b : Bitmap} {clusters : Nat} (hshape : InOrder shape)
    (h : Cleared clusters b.regions) (ht : b.bTotalBits = clusters) (hlt : clusters < 2 ^ 32) :
    Covers shape clusters b := by
  refine ⟨h.good.sorted, h.bits, fun x hx => ?_, fun junk x hx => ?_⟩
  · rw [bitmapTest_eq hshape h.good (by omega) (by omega), h.bits, if_pos hx]
  · rcases @bitmapChange_cases shape .cluster b x true hshape h.good (by omega) junk with
      ⟨h' | ⟨-, h'⟩, -⟩ | ⟨l', -, -, hch, heq⟩
    · omega
    · rw [h.bits, if_pos hx] at h'
      cases h'
    · refine ⟨_, heq, ?_⟩
      refine (bitmapTest_eq hshape ?_ ?_ ?_).trans ?_
      · exact hch.good
      · omega
      · exact ht.symm ▸ hx
      · simp [hch.bits]

/-- A new cluster bitmap covers the clusters exactly if one region has room for all of them or
    regions of the largest size have. -/
theorem clusterBitmapNew_covers_iff {shape : Nat → RTree} (hshape : InOrder shape) (fs : Filesys)
    {fsClusters : Nat} (hlt : fsClusters < 2 ^ 32) :
    (∃ b, clusterBitmapNew shape fs fsClusters = .ok b ∧ Covers shape fsClusters b) ↔
      fsClusters ≤ intMax - (fs.fsClustersize - 1) ∨
        intMax - (fs.fsClustersize - 1) ∣ fsClusters := by
  have hsize := fs.fsClustersize_le
  have hge : 4096 ≤ fs.fsClustersize :=
    Nat.pow_le_pow_right (n := 2) (by decide) fs.clustersize_ge
  have hmax : intMax = 2147483647 := by decide
  have hempty : Cleared 0 [] := ⟨⟨.nil, nofun⟩, fun _ => rfl, rfl⟩
  generalize hM : intMax - (fs.fsClustersize - 1) = M
  unfold clusterBitmapNew
  rw [hM]
  rcases Nat.eq_zero_or_pos fsClusters with rfl | hpos
  · simp only [zero_le, true_or, iff_true]
    exact ⟨_, rfl, hempty.covers hshape rfl (by decide)⟩
  · obtain ⟨b, stop, heq, ht, hcl, hdvd, hle, hstop⟩ := clusterRegions_run hshape
      (n := if M < fsClusters then M else fsClusters) rfl (by split <;> omega)
      (by split <;> omega) hlt (fsClusters + 1) 0 ⟨fsClusters, 0, []⟩ rfl hempty
      (Nat.dvd_zero _) (by omega) (by omega)
    rw [heq]
    constructor
    · rintro ⟨b', hb', hcov⟩
      obtain rfl := Except.ok.inj hb'
      -- The bit at the end has no region, so that the regions stop there.
      have hend : stop = fsClusters := by
        by_contra hne
        have h1 := hcov.bits fsClusters
        rw [hcl.bits, if_pos (by omega), if_neg (lt_irrefl _)] at h1
        cases h1
      split at hdvd
      · exact .inr (hend ▸ hdvd)
      · omega
    · intro h
      refine ⟨b, rfl, Cleared.covers hshape ?_ ht hlt⟩
      have hend : stop = fsClusters := by
        by_cases hbig : M < fsClusters
        · rw [if_pos hbig] at hdvd hstop
          have hd : M ∣ fsClusters := h.resolve_left (by omega)
          obtain ⟨i, rfl⟩ := hdvd
          obtain ⟨j, rfl⟩ := hd
          have h1 : i < j + 1 := Nat.lt_of_mul_lt_mul_left (by omega)
          have h2 : j ≤ i := Nat.le_of_mul_le_mul_left hle (by omega)
          rw [le_antisymm (Nat.le_of_lt_succ h1) h2]
        · rw [if_neg hbig] at hdvd hstop
          obtain ⟨i, rfl⟩ := hdvd
          have h1 : i < 2 := Nat.lt_of_mul_lt_mul_left (a := fsClusters) (by omega)
          have h2 : i ≠ 0 := by
            rintro rfl
            omega
          rw [show i = 1 by omega, mul_one]
      exact hend ▸ hcl

def bitmapFs : Filesys := .largeBlocks 1000

/-- `2^31` clusters: the second region passes the end, and the bit behind the last cluster has
    a region. -/
theorem clusterBitmapNew_past_end : ∃ b, clusterBitmapNew spine bitmapFs (2 ^ 31) = .ok b ∧
    bitsOf b.regions (2 ^ 31) = some false := by
  obtain ⟨b, stop, heq, -, hcl, ⟨i, rfl⟩, hle, hlt⟩ := @clusterRegions_run spine spine_inOrder
    (2 ^ 31) (intMax - (bitmapFs.fsClustersize - 1)) _ rfl (by decide) (by decide) (by decide)
    (2 ^ 31 + 1) 0 ⟨2 ^ 31, 0, []⟩ rfl ⟨⟨.nil, nofun⟩, fun _ => rfl, rfl⟩
    (Nat.dvd_zero _) (by decide) (by decide)
  refine ⟨b, heq, (hcl.bits _).trans (if_pos ?_)⟩
  have hM : (if intMax - (bitmapFs.fsClustersize - 1) < 2 ^ 31 then
      intMax - (bitmapFs.fsClustersize - 1) else 2 ^ 31) = 2147479552 := by decide
  rw [hM] at hle ⊢
  omega

theorem clusterBitmapNew_covers_two : ∃ b, clusterBitmapNew spine bitmapFs 4294959104 = .ok b ∧
    Covers spine 4294959104 b :=
  (clusterBitmapNew_covers_iff spine_inOrder bitmapFs (by decide)).mpr (.inr ⟨2, by decide⟩)

end Ocfs2Tools.Bitmap
