import Ocfs2Tools.Format

/-!
# The size of a volume that is resized: `op_resize_volume.c`

The new size is shifted into bytes in 64 bits, and the shift is taken to have wrapped if the
result is smaller than the number that was given. With large clusters a number of clusters can
wrap into a size in bytes that is not smaller, and the volume grows to that size.
-/

namespace Ocfs2Tools.Resize

variable (fs : Filesys)

inductive ResizeUnit where
  | bytes | blocks | clusters

inductive ResizeError where
  | invalidNumber | deviceSize

/-- `fs_clusters`, `tunefs_is_journal64`, and what `ocfs2_get_device_size` finds. -/
structure Limits where
  fsClusters : Nat
  block64 : Bool
  deviceBlocks : Option Nat

def ResizeUnit.size : ResizeUnit → Nat
  | bytes => 1
  | blocks => fs.fsBlocksize
  | clusters => fs.fsClustersize

def clustersToBytes (clusters : Nat) : Nat :=
  let ret := clusters * fs.fsClustersize % 2 ^ 64
  if ret < clusters then 2 ^ 64 - 1 else ret

def clustersInBytes (bytes : Nat) : Nat :=
  let ret := (bytes + fs.fsClustersize - 1) % 2 ^ 64
  let ret := if ret < bytes then 2 ^ 64 - 1 else ret
  min (ret / fs.fsClustersize) uint32Max

/-- Neither the device nor the file system nor its journal is against so many clusters. -/
def Fits (l : Limits) (deviceClusters clusters : Nat) : Prop :=
  clusters ≤ deviceClusters ∧ l.fsClusters ≤ clusters ∧
    (l.block64 = true ∨ clustersToBlocks fs clusters ≤ uint32Max)

instance (l : Limits) (d c : Nat) : Decidable (Fits fs l d c) := inferInstanceAs (Decidable (_ ∧ _))

def checkNewSize (l : Limits) (newSize : Nat) : Except ResizeError Nat :=
  let tryClusters := clustersInBytes fs newSize
  if clustersToBytes fs uint32Max < newSize then .error .invalidNumber
  else
    match l.deviceBlocks with
    | none => .error .deviceSize
    | some deviceBlocks =>
      let deviceClusters := deviceBlocks / fs.bpc
      if tryClusters = 0 ∧ uint32Max < deviceClusters then .error .invalidNumber
      else
        -- without a size the file system fills the device
        let tryClusters := if tryClusters = 0 then deviceClusters else tryClusters
        if Fits fs l deviceClusters tryClusters then .ok tryClusters else .error .invalidNumber

/-- `new_size` after the shift. -/
def newSize (unit : ResizeUnit) (rsSize : Nat) : Nat := rsSize * unit.size fs % 2 ^ 64

/-- `resize_volume_run`, up to the number of clusters it goes on with. -/
def resizeVolumeRun (l : Limits) (unit : ResizeUnit) (rsSize : Nat) : Except ResizeError Nat :=
  checkNewSize fs l (if newSize fs unit rsSize < rsSize then 2 ^ 64 - 1 else newSize fs unit rsSize)

/-- The clusters that hold so many bytes. -/
def holding (bytes : Nat) : Nat := (bytes + fs.fsClustersize - 1) / fs.fsClustersize

variable {fs} {l : Limits} {unit : ResizeUnit} {s n c : Nat}

theorem clustersInBytes_eq (hle : n ≤ uint32Max * fs.fsClustersize) :
    clustersInBytes fs n = holding fs n ∧ holding fs n ≤ uint32Max := by
  have hpos : 0 < fs.fsClustersize := Nat.two_pow_pos _
  have hmax := fs.fsClustersize_le
  have hlt : holding fs n < uint32Max + 1 := by
    refine Nat.div_lt_of_lt_mul ?_
    rw [Nat.mul_succ, Nat.mul_comm]
    omega
  unfold uint32Max at hle
  have hret : (n + fs.fsClustersize - 1) % 2 ^ 64 = n + fs.fsClustersize - 1 :=
    Nat.mod_eq_of_lt (by omega)
  simp only [clustersInBytes, hret]
  rw [if_neg (by omega)]
  exact ⟨Nat.min_eq_left (Nat.le_of_lt_succ hlt), Nat.le_of_lt_succ hlt⟩

theorem checkNewSize_ok_iff (hn : 0 < n) : checkNewSize fs l n = .ok c ↔
    n ≤ uint32Max * fs.fsClustersize ∧ c = holding fs n ∧
      ∃ d, l.deviceBlocks = some d ∧ Fits fs l (d / fs.bpc) (holding fs n) := by
  have hpos : 0 < fs.fsClustersize := Nat.two_pow_pos _
  have hmax := fs.fsClustersize_le
  have hbytes : clustersToBytes fs uint32Max = uint32Max * fs.fsClustersize := by
    have hret : uint32Max * fs.fsClustersize % 2 ^ 64 = uint32Max * fs.fsClustersize :=
      Nat.mod_eq_of_lt (by unfold uint32Max; omega)
    simp only [clustersToBytes, hret]
    exact if_neg (not_lt.mpr (Nat.le_mul_of_pos_right _ hpos))
  simp only [checkNewSize, hbytes]
  by_cases hle : n ≤ uint32Max * fs.fsClustersize
  · have hsome : holding fs n ≠ 0 := Nat.ne_of_gt (Nat.div_pos (by omega) hpos)
    rw [if_neg (not_lt.mpr hle), (clustersInBytes_eq hle).1]
    simp only [hle, hsome, if_false, false_and, true_and]
    cases l.deviceBlocks with
    | none => simp
    | some d =>
      by_cases hfits : Fits fs l (d / fs.bpc) (holding fs n)
      · simp [hfits, eq_comm]
      · simp [hfits]
  · rw [if_pos (not_le.mp hle)]
    simp [hle]

/-- **A resize** goes on with the clusters that were asked for and no other number, unless the
    size wraps into one that is let through. -/
theorem resizeVolumeRun_exact_iff (hs : 0 < s) :
    (∀ c, resizeVolumeRun fs l unit s = .ok c → c = holding fs (s * unit.size fs)) ↔
      ¬ (2 ^ 64 ≤ s * unit.size fs ∧ s ≤ newSize fs unit s ∧
        newSize fs unit s ≤ uint32Max * fs.fsClustersize ∧ ∃ d, l.deviceBlocks = some d ∧
          Fits fs l (d / fs.bpc) (holding fs (newSize fs unit s))) := by
  have hmax := fs.fsClustersize_le
  have hpos : 0 < fs.fsClustersize := Nat.two_pow_pos _
  have hunit : 0 < unit.size fs := by
    cases unit
    · exact Nat.one_pos
    · exact Nat.two_pow_pos _
    · exact hpos
  unfold resizeVolumeRun
  by_cases hwrap : s * unit.size fs < 2 ^ 64
  · -- nothing is lost
    refine iff_of_true (fun c hc => ?_) fun h => absurd h.1 (not_le.mpr hwrap)
    have hge : s ≤ s * unit.size fs := Nat.le_mul_of_pos_right s hunit
    rw [newSize, Nat.mod_eq_of_lt hwrap, if_neg (not_lt.mpr hge)] at hc
    exact ((checkNewSize_ok_iff (lt_of_lt_of_le hs hge)).mp hc).2.1
  · have hbig : uint32Max + 1 ≤ holding fs (s * unit.size fs) := by
      rw [holding, Nat.le_div_iff_mul_le hpos]
      unfold uint32Max
      omega
    split
    · next hless =>
      refine iff_of_true (fun c hc => ?_) fun h => absurd h.2.1 (not_le.mpr hless)
      have hall := ((checkNewSize_ok_iff (by decide)).mp hc).1
      unfold uint32Max at hall
      omega
    · next hless =>
      have hnew : 0 < newSize fs unit s := lt_of_lt_of_le hs (not_lt.mp hless)
      constructor
      · rintro h ⟨-, -, hle, hfits⟩
        have heq := h _ ((checkNewSize_ok_iff hnew).mpr ⟨hle, rfl, hfits⟩)
        have hsmall := (clustersInBytes_eq hle).2
        omega
      · intro h c hc
        obtain ⟨hle, -, hfits⟩ := (checkNewSize_ok_iff hnew).mp hc
        exact absurd ⟨not_lt.mp hwrap, not_lt.mp hless, hle, hfits⟩ h

/-- Clusters of a megabyte. -/
def bigClusters : Filesys := { Filesys.largeBlocks 1000 with
  sClustersizeBits := 20, clustersize_ge := Nat.le_add_right 12 8, clustersize_le := le_refl 20 }

/-- More than `2 ^ 44` clusters are asked for, and the volume grows to `2 ^ 25` of them. -/
theorem resizeVolumeRun_wraps : resizeVolumeRun bigClusters ⟨1000, true, some (2 ^ 40)⟩ .clusters
    (2 ^ 44 + 2 ^ 25) = .ok (2 ^ 25) := by
  rfl

theorem resizeVolumeRun_exact_small : holding bigClusters (2000 * 2 ^ 20) = 2000 ∧
    ∀ c, resizeVolumeRun bigClusters ⟨1000, true, some (2 ^ 40)⟩ .clusters 2000 = .ok c →
      c = holding bigClusters (2000 * 2 ^ 20) :=
  ⟨by decide, (resizeVolumeRun_exact_iff (by decide)).mpr fun h => absurd h.1 (by decide)⟩

end Ocfs2Tools.Resize
