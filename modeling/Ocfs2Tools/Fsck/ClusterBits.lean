import Ocfs2Tools.Bitmap.Holes

/-!
# The global bitmap after pass 1

`write_cluster_alloc` compares the clusters that pass 1 found in use with the bits of the
global bitmap, with one cursor in each: bits before the next cluster in use are cleared, except
those of backup superblocks, and its own bit is set. Every question is answered yes. How the
bitmap is written back is in `ChainAlloc.Disk`.
-/

namespace Ocfs2Tools.Bitmap

open List
open ChainAlloc (RTree)

/-- What the scan reads besides the global bitmap: `ost_allocated_clusters` and whether the
    volume has backup superblocks. -/
structure Scan where
  fs : Filesys
  fsClusters : Nat
  backupSb : Bool
  used : Bitmap
  shape : Nat → RTree

namespace Scan

variable (sc : Scan)

/-- The clusters with a backup superblock: `ocfs2_get_backup_super_offsets`. -/
def backups : List Nat :=
  if sc.backupSb then (((range 6).map fun i => 2 ^ (30 + 2 * i) / sc.fs.fsBlocksize).takeWhile
    (· < sc.fs.fsBlocks)).map (blocksToClusters sc.fs)
  else []

/-- `ocfs2_bitmap_find_next_set`: without a set bit the end is found, and after any other error
    the variable keeps its value `was`. -/
def nextSet (kind : Kind) (b : Bitmap) (start was : Nat) : Nat :=
  match findNext sc.shape kind true start b with
  | .ok found => found
  | .error .bitNotFound => sc.fsClusters
  | .error _ => was

/-- `force_cluster_bit`, whose error nobody looks at. -/
def forceClusterBit (val : Bool) (bit : Nat) (ci : Bitmap) : Option Bitmap :=
  (bitmapChange sc.shape .chain false val bit ci).map Prod.snd

/-- The inner loop: bits before `cbit` are cleared, from `cbit_found` on. -/
def clearTo (cbit : Nat) : Nat → Nat → Bitmap → Option (Nat × Bitmap)
  | 0, _, _ => none
  | fuel + 1, found, ci =>
    if found < cbit then do
      let ci ← (if found ∈ sc.backups then some ci else sc.forceClusterBit false found ci)
      clearTo cbit fuel (sc.nextSet .chain ci (found + 1) (found + 1)) ci
    else some (found, ci)

/-- The outer loop. `last_cbit` is where `cbit` starts. -/
def clusterLoop : Nat → Nat → Nat → Bitmap → Option Bitmap
  | 0, _, _, _ => none
  | fuel + 1, lastCbit, found, ci =>
    if lastCbit < sc.fsClusters then
      let cbit := sc.nextSet .cluster sc.used lastCbit lastCbit
      let found := sc.nextSet .chain ci lastCbit found
      if found = cbit then clusterLoop fuel (cbit + 1) found ci
      else do
        let (found, ci) ← sc.clearTo cbit (sc.fsClusters + 1) found ci
        let ci ← (if found ≠ cbit ∧ cbit ≠ sc.fsClusters then sc.forceClusterBit true cbit ci
          else some ci)
        clusterLoop fuel (cbit + 1) found ci
    else some ci

/-- `write_cluster_alloc`; `junk` is what `cbit_found` holds at first. -/
def writeClusterAlloc (junk : Nat) (ci : Bitmap) : Option Bitmap :=
  sc.clusterLoop (sc.fsClusters + 1) 0 junk ci

/-- What becomes of the bit of a cluster. -/
def wanted (ci : Bitmap) (x : Nat) : Option Bool :=
  (bitsOf ci.regions x).map fun was =>
    bitsOf sc.used.regions x == some true || was && decide (x ∈ sc.backups)

/-- Only clusters are in use, and the global bitmap is large enough for all of them. -/
structure Ok (ci : Bitmap) : Prop where
  shape : InOrder sc.shape
  used : Good sc.used.regions
  size : sc.used.bTotalBits = sc.fsClusters
  inside : ∀ x, bitsOf sc.used.regions x = some true → x < sc.fsClusters
  good : Good ci.regions
  le : sc.fsClusters ≤ ci.bTotalBits
  lt : ci.bTotalBits < 2 ^ 64

/-- The bits before `stop` are as they should be, and the others as they were. -/
structure Settled (ci : Bitmap) (stop : Nat) (t : Bitmap) : Prop where
  good : Good t.regions
  size : t.bTotalBits = ci.bTotalBits
  bits : ∀ x < sc.fsClusters, bitsOf t.regions x =
    if x < stop then sc.wanted ci x else bitsOf ci.regions x

variable {sc} {ci t : Bitmap} {stop stop' : Nat}

section Steps

variable (h : sc.Settled ci stop t)
include h

theorem Settled.unchanged {x : Nat} (hx : x < sc.fsClusters) (hle : stop ≤ x) :
    bitsOf t.regions x = bitsOf ci.regions x := by
  rw [h.bits x hx, if_neg (not_lt.mpr hle)]

theorem Settled.extend (hle : stop ≤ stop') (hsame : ∀ x < sc.fsClusters, stop ≤ x → x < stop' →
    sc.wanted ci x = bitsOf ci.regions x) : sc.Settled ci stop' t := by
  refine ⟨h.good, h.size, fun x hx => ?_⟩
  rw [h.bits x hx]
  split
  · rw [if_pos (by omega)]
  · next h1 =>
    split
    · next h2 =>
      rw [hsame x hx (not_lt.mp h1) h2]
    · rfl

theorem Settled.skip (hle : stop ≤ stop') (hclear : ∀ x < sc.fsClusters, stop ≤ x → x < stop' →
    bitsOf t.regions x ≠ some true ∧ bitsOf sc.used.regions x ≠ some true) :
    sc.Settled ci stop' t := by
  refine h.extend hle fun x hx h1 h2 => ?_
  obtain ⟨h3, h4⟩ := hclear x hx h1 h2
  rw [h.unchanged hx h1] at h3
  rw [wanted]
  cases hb : bitsOf ci.regions x with
  | none => rfl
  | some was =>
    cases was with
    | false => simp [h4]
    | true => exact absurd hb h3

theorem Settled.force (hok : sc.Ok ci) (hstop : stop < sc.fsClusters) {val : Bool}
    (hval : sc.wanted ci stop = (bitsOf ci.regions stop).map fun _ => val) :
    ∃ u, sc.forceClusterBit val stop t = some u ∧ sc.Settled ci (stop + 1) u := by
  have hsame := h.unchanged hstop (le_refl _)
  have hsize := h.size
  have hle := hok.le
  rcases @bitmapChange_cases sc.shape .chain t stop val hok.shape h.good (hsize ▸ hok.lt) false with
    ⟨h' | ⟨-, hnone⟩, heq⟩ | ⟨l, -, hne, hch, heq⟩
  · omega
  · refine ⟨t, congrArg (Option.map Prod.snd) heq, h.extend (by omega) fun x _ h1 h2 => ?_⟩
    obtain rfl : x = stop := by omega
    rw [hval, ← hsame, hnone]
    rfl
  · refine ⟨_, congrArg (Option.map Prod.snd) heq, hch.good, h.size, fun x hx => ?_⟩
    rw [hch.bits]
    by_cases hxs : x = stop
    · subst hxs
      obtain ⟨was, hwas⟩ := Option.ne_none_iff_exists'.mp (hne.resolve_left (by decide))
      rw [if_pos rfl, if_pos (Nat.lt_succ_self x), hval, ← hsame, hwas]
      rfl
    · rw [if_neg hxs, h.bits x hx]
      split
      · rw [if_pos (by omega)]
      · rw [if_neg (by omega)]

theorem Settled.step (hused : stop = sc.fsClusters ∨ bitsOf sc.used.regions stop = some true)
    (hset : stop = sc.fsClusters ∨ bitsOf t.regions stop = some true) :
    sc.Settled ci (stop + 1) t := by
  refine h.extend (by omega) fun x hx h1 h2 => ?_
  obtain rfl : x = stop := by omega
  rw [wanted, ← h.unchanged hx h1, hset.resolve_left (by omega), hused.resolve_left (by omega)]
  rfl

end Steps

/-- `x` is the first set bit from `start` on, or the end if there is none. -/
structure Next (sc : Scan) (b : Bitmap) (start x : Nat) : Prop where
  le : start ≤ x
  clear : ∀ y, start ≤ y → y < x → y < sc.fsClusters → bitsOf b.regions y ≠ some true
  set : x = sc.fsClusters ∨ bitsOf b.regions x = some true

theorem nextSet_next (kind : Kind) (was : Nat) {b : Bitmap} {start : Nat}
    (hshape : InOrder sc.shape) (hb : Good b.regions) (hle : sc.fsClusters ≤ b.bTotalBits)
    (hlt : b.bTotalBits < 2 ^ 64)
    (hstart : start < sc.fsClusters ∨ start = sc.fsClusters ∧ was = sc.fsClusters) :
    sc.Next b start (sc.nextSet kind b start was) := by
  unfold nextSet
  by_cases hs : start < b.bTotalBits
  · have hspec := findNext_set kind hshape hb hlt hs
    cases hf : findNext sc.shape kind true start b with
    | ok x =>
      rw [hf] at hspec
      exact ⟨hspec.1, fun y h1 h2 _ => hspec.2.2 y h1 h2, .inr hspec.2.1⟩
    | error e =>
      rw [hf] at hspec
      obtain ⟨rfl, hno⟩ := hspec
      exact ⟨by show start ≤ sc.fsClusters; omega, fun y h1 _ _ => hno y h1, .inl rfl⟩
  · -- the search starts at the end
    have hwas : start = sc.fsClusters ∧ was = sc.fsClusters := by omega
    rw [findNext, if_pos (not_lt.mp hs)]
    exact ⟨by show start ≤ was; omega, fun y h1 _ hy => by omega, .inl hwas.2⟩

section Loops

variable (hok : sc.Ok ci)
include hok

theorem Ok.next (was : Nat) (h : sc.Settled ci stop t) {start : Nat}
    (hstart : start < sc.fsClusters ∨ start = sc.fsClusters ∧ was = sc.fsClusters) :
    sc.Next t start (sc.nextSet .chain t start was) :=
  nextSet_next .chain was hok.shape h.good (h.size ▸ hok.le) (h.size ▸ hok.lt) hstart

theorem Ok.clearTo {cbit : Nat} (hcbit : cbit ≤ sc.fsClusters) : ∀ fuel found t,
    sc.fsClusters - found < fuel →
    (∀ x, found ≤ x → x < cbit → bitsOf sc.used.regions x ≠ some true) →
    (found = sc.fsClusters ∨ bitsOf t.regions found = some true) →
    sc.Settled ci (min found cbit) t → ∃ found' u, sc.clearTo cbit fuel found t = some (found', u) ∧
      (found' = sc.fsClusters ∨ bitsOf u.regions found' = some true) ∧ sc.Settled ci cbit u
  | 0, _, _, hfuel, _, _, _ => absurd hfuel (Nat.not_lt_zero _)
  | fuel + 1, found, t, hfuel, hno, hset, h => by
    rw [Scan.clearTo]
    by_cases hgo : found < cbit
    · rw [min_eq_left (le_of_lt hgo)] at h
      have hused : (bitsOf sc.used.regions found == some true) = false := by
        simpa using hno found (le_refl _) hgo
      obtain ⟨u, heq, hu⟩ : ∃ u, (if found ∈ sc.backups then some t else
          sc.forceClusterBit false found t) = some u ∧ sc.Settled ci (found + 1) u := by
        by_cases hb : found ∈ sc.backups
        · refine ⟨t, if_pos hb, h.extend (by omega) fun x _ h1 h2 => ?_⟩
          obtain rfl : x = found := by omega
          simp [wanted, hused, hb]
        · rw [if_neg hb]
          exact h.force hok (by omega) (by simp [wanted, hused, hb])
      rw [if_pos hgo, heq]
      have hnext := hok.next (found + 1) hu (by omega : found + 1 < sc.fsClusters ∨ _)
      have hle := hnext.le
      refine Ok.clearTo hcbit fuel _ u (by omega) (fun x hx => hno x (by omega)) hnext.set
        (hu.skip (by omega) fun x hx h1 h2 => ⟨hnext.clear x h1 (by omega) hx, ?_⟩)
      exact hno x (by omega) (by omega)
    · rw [min_eq_right (not_lt.mp hgo)] at h
      exact ⟨found, t, if_neg hgo, hset, h⟩

theorem Ok.clusterLoop : ∀ fuel lastCbit found t, sc.fsClusters - lastCbit < fuel →
    sc.Settled ci lastCbit t →
    ∃ u, sc.clusterLoop fuel lastCbit found t = some u ∧ sc.Settled ci sc.fsClusters u
  | 0, _, _, _, hfuel, _ => absurd hfuel (Nat.not_lt_zero _)
  | fuel + 1, lastCbit, found, t, hfuel, h => by
    rw [Scan.clusterLoop]
    split
    · next hgo =>
      obtain ⟨hc1, hc2, hc3⟩ := nextSet_next .cluster lastCbit hok.shape hok.used
        (le_of_eq hok.size.symm) (lt_of_le_of_lt (hok.size ▸ hok.le) hok.lt) (.inl hgo)
      obtain ⟨hf1, hf2, hf3⟩ := hok.next found h (.inl hgo)
      generalize sc.nextSet .cluster sc.used lastCbit lastCbit = cbit at *
      generalize sc.nextSet .chain t lastCbit found = found at *
      have hcbit : cbit ≤ sc.fsClusters := hc3.elim le_of_eq fun hx => le_of_lt (hok.inside cbit hx)
      have hmin : sc.Settled ci (min found cbit) t := h.skip (by omega)
        fun x hx h1 h2 => ⟨hf2 x h1 (by omega) hx, hc2 x h1 (by omega) hx⟩
      by_cases heq : found = cbit
      · rw [heq, min_self] at hmin
        rw [if_pos heq]
        exact Ok.clusterLoop fuel _ _ _ (by omega) (hmin.step hc3 (heq ▸ hf3))
      · obtain ⟨found', u, hrun, hset, hu⟩ := hok.clearTo hcbit (sc.fsClusters + 1) found t
          (by omega) (fun x h1 h2 => hc2 x (by omega) h2 (by omega)) hf3 hmin
        rw [if_neg heq, hrun]
        obtain ⟨w, hforce, hw⟩ : ∃ w, (if found' ≠ cbit ∧ cbit ≠ sc.fsClusters then
            sc.forceClusterBit true cbit u else some u) = some w ∧ sc.Settled ci (cbit + 1) w := by
          split
          · next hne =>
            have hin := hc3.resolve_left hne.2
            exact hu.force hok (hok.inside cbit hin) (by simp [wanted, hin])
          · next hno => exact ⟨u, rfl, hu.step hc3 (by grind)⟩
        show ∃ v, Option.bind (if found' ≠ cbit ∧ cbit ≠ sc.fsClusters then _ else _) _ = some v ∧ _
        rw [hforce]
        exact Ok.clusterLoop fuel _ _ _ (by omega) hw
    · refine ⟨t, rfl, h.good, h.size, fun x hx => ?_⟩
      rw [h.bits x hx, if_pos (by omega), if_pos hx]

end Loops

/-- **What is written:** the bit of a cluster is set exactly if the cluster was found in use, or
    belongs to a backup superblock and its bit was set before. -/
theorem writeClusterAlloc_bits (hok : sc.Ok ci) (junk : Nat) :
    ∃ ci', sc.writeClusterAlloc junk ci = some ci' ∧ ∀ x < sc.fsClusters,
      bitsOf ci'.regions x = (bitsOf ci.regions x).map fun was =>
        bitsOf sc.used.regions x == some true || was && decide (x ∈ sc.backups) := by
  obtain ⟨ci', hrun, h⟩ := hok.clusterLoop (sc.fsClusters + 1) 0 junk ci (by omega)
    ⟨hok.good, rfl, fun _ _ => rfl⟩
  exact ⟨ci', hrun, fun x hx => (h.bits x hx).trans (if_pos hx)⟩

def eightBits (byte : UInt8) : Bitmap := ⟨8, 0, [⟨0, 0, 8, 0, [byte]⟩]⟩

theorem eightBits_good (byte : UInt8) : Good (eightBits byte).regions :=
  ⟨pairwise_singleton _ _, fun r hr => mem_singleton.mp hr ▸ ⟨Nat.succ_pos 7,
    (by decide : 8 + 0 + 7 ≤ intMax), (by decide : 1 = (8 + 0 + 7) / 8), fun x h1 h2 =>
    absurd (lt_of_le_of_lt h1 h2) (lt_irrefl 8)⟩⟩

def eightClusters : Scan :=
  ⟨.largeBlocks 8, 8, true, eightBits 6, spine⟩

/-- Bits 2 and 3 were set. -/
theorem writeClusterAlloc_bits_eight : eightClusters.Ok (eightBits 12) ∧
    ∃ ci', eightClusters.writeClusterAlloc 0 (eightBits 12) = some ci' ∧
      bitsOf ci'.regions 1 = some true ∧ bitsOf ci'.regions 3 = some false := by
  have hok : eightClusters.Ok (eightBits 12) := by
    refine ⟨spine_inOrder, eightBits_good 6, rfl, fun x hx => ?_, eightBits_good 12, by decide,
      by decide⟩
    obtain ⟨r, hr, hv⟩ := exists_of_findSome?_eq_some hx
    obtain rfl := mem_singleton.mp hr
    exact (bitAt_eq_some hv).2
  obtain ⟨ci', hrun, h⟩ := writeClusterAlloc_bits hok 0
  exact ⟨hok, ci', hrun, (h 1 (by decide)).trans (by decide), (h 3 (by decide)).trans (by decide)⟩

end Scan

end Ocfs2Tools.Bitmap
