import Ocfs2Tools.FileRead
import Ocfs2Tools.ExtentTree.InsertRoot

/-!
# Extending the allocation of a file: `ocfs2_extend_allocation`

The loop asks the allocator for clusters until it has as many as it wants, and inserts each
run it gets behind the one before. It starts at the cluster where `i_size` ends, whether or
not the file has clusters there already.

The allocator is left open, as `Space` has it; the insertion is `ocfs2_tree_insert_extent` on
the extent tree of the inode.
-/

namespace Ocfs2Tools.Extend

open Prog ExtentRec

variable {fs : Filesys} {fuel turn n cpos : Nat} {u : Unit}

variable {a : Space} {s t : St}

/-! ### The functions of `extend_file.c` -/

/-- What the allocator answers during one call, and the error of reading the inode, if there is one.
    `newClusters` gives the first cluster of a run of at most as many as were asked for; the run
    lies in one cluster group, which holds fewer than `2^16`, and not at cluster 0, where the super
    block is. -/
structure Space where
  readInode : Option Errcode
  newClusters : Nat → Nat → Except Errcode (Nat × Nat)
  newClusters_ok : ∀ i requested start n, newClusters i requested = .ok (start, n) →
    0 < n ∧ n ≤ requested ∧ n < 65536 ∧ 0 < start ∧ start + n ≤ uint32Max

/-- `ocfs2_cached_inode_insert_extent`. -/
def cachedInodeInsertExtent (fs : Filesys) (cpos start n flag : Nat) : M Unit :=
  treeInsertExtent fs cpos (clustersToBlocks fs start) n flag

/-- `ocfs2_free_clusters`, whose error nobody looks at. -/
def freeClusters (fs : Filesys) (n start : Nat) : M Unit :=
  Prog.modify fun s => { s with released := .clusters (clustersToBlocks fs start) n :: s.released }

/-- The loop of `ocfs2_cached_inode_extend_allocation`. Every turn takes at least one cluster;
    a turn that took none would be repeated for ever. -/
def extendLoop (fs : Filesys) (a : Space) : Nat → Nat → Nat → Nat → M Unit
  | 0, _, newClusters, _ => if newClusters = 0 then pure () else abort
  | fuel + 1, turn, newClusters, cpos =>
    if newClusters = 0 then pure ()
    else do
      let (start, n) ← ofExcept (a.newClusters turn newClusters)
      match ← attempt (cachedInodeInsertExtent fs cpos start n 0) with
      | .error e => do
        freeClusters fs n start
        fail e
      | .ok _ => extendLoop fs a fuel (turn + 1) (newClusters - n) (addW 32 cpos n)

/-- The cluster the loop starts at: a `uint32_t`. -/
def endCpos (fs : Filesys) (iSize : Nat) : Nat :=
  addW 64 iSize (fs.fsClustersize - 1) / fs.fsClustersize % 2 ^ 32

/-- `ocfs2_cached_inode_extend_allocation`. -/
def cachedInodeExtendAllocation (fs : Filesys) (a : Space) (newClusters : Nat) : M Unit := do
  let s ← Prog.get
  extendLoop fs a newClusters 0 newClusters (endCpos fs s.root.iSize)

/-- `ocfs2_extend_allocation`. -/
def extendAllocation (fs : Filesys) (a : Space) (newClusters : Nat) : M Unit := do
  match a.readInode with
  | some e => fail e
  | none => do
    Prog.modify fun s => { s with root := s.dev.inode }
    cachedInodeExtendAllocation fs a newClusters
    let s ← Prog.get
    writeInode fs s.root

/-! ### One turn -/

/-- The extent list is in the inode, and has a free record for each of `k` runs. -/
def Room (k : Nat) (s : St) : Prop :=
  s.root.iList.lTreeDepth = 0 ∧ s.root.iList.lNextFreeRec + k ≤ s.root.iList.lCount

/-- No record of the file gets longer than 16 bits can say, even if all `n` clusters go into it. -/
def Short (n : Nat) (s : St) : Prop :=
  n < 65536 ∧ ∀ x ∈ s.root.iList.nonempty, x.eLeafClusters + n < 65536

def devMap (fs : Filesys) (dev : Device) (w : Nat) : Option (Nat × Nat) :=
  treeMap fs dev.ebs dev.inode.iList w

/-- The number of runs in which the allocator hands out `n` clusters from a turn on. -/
def runs (a : Space) : Nat → Nat → Nat → Nat
  | 0, _, _ => 0
  | fuel + 1, turn, n =>
    if n = 0 then 0
    else
      match a.newClusters turn n with
      | .ok (_, m) => runs a fuel (turn + 1) (n - m) + 1
      | .error _ => 0

def Mapped (s : St) (w : Nat) : Prop :=
  ∃ x ∈ s.root.iList.nonempty, Covers eCpos eLeafClusters x w

theorem extendLoop_turn (hn : n ≠ 0) (hroom : Room (runs a fuel turn n) s)
    (h : extendLoop fs a fuel turn n cpos s = some (.ok u, t)) :
    ∃ start m el s' fuel', a.newClusters turn n = .ok (start, m) ∧
      s.root.iList.lNextFreeRec < s.root.iList.lCount ∧
      LeafInsert fs (insertRecOf cpos (clustersToBlocks fs start) m 0) s.root.iList el ∧
      s'.root = withList s.root el (insertRecOf cpos (clustersToBlocks fs start) m 0) ∧
      Room (runs a fuel' (turn + 1) (n - m)) s' ∧
      extendLoop fs a fuel' (turn + 1) (n - m) (addW 32 cpos m) s' = some (.ok u, t) := by
  cases fuel with
  | zero =>
    rw [extendLoop, if_neg hn] at h
    cases h
  | succ fuel =>
    rw [extendLoop, if_neg hn] at h
    obtain ⟨⟨start, m⟩, s1, hnew, h⟩ := bind_eq_ok h
    obtain ⟨r, s2, hins, h⟩ := bind_eq_ok h
    obtain ⟨r', hr', hins⟩ := attempt_eq hins
    cases hr'
    cases hc : a.newClusters turn n with
    | error e =>
      rw [hc] at hnew
      cases hnew
    | ok p =>
      rw [hc] at hnew
      cases hnew
      rw [runs, if_neg hn, hc] at hroom
      obtain ⟨hd, hroom⟩ := hroom
      dsimp only at hroom
      cases r with
      | error e =>
        obtain ⟨_, _, -, h⟩ := bind_eq_ok h
        cases h
      | ok _ =>
        have hlt : s.root.iList.lNextFreeRec < s.root.iList.lCount := by omega
        obtain ⟨el, hleaf, hroot, -⟩ := treeInsertExtent_root_ok hd hlt hins
        refine ⟨start, m, el, s2, fuel, rfl, hlt, hleaf, hroot, ?_, h⟩
        have := hleaf.next
        have hc' := hleaf.count
        rw [Room, hroot]
        exact ⟨hleaf.depth.trans hd, by simp only [withList]; omega⟩

theorem extendLoop_done (h : extendLoop fs a fuel turn 0 cpos s = some (.ok u, t)) : t = s := by
  cases fuel with
  | zero => cases h; rfl
  | succ fuel => cases h; rfl

/-! ### The loop -/

/-- Whatever is there, only so many clusters can become mapped. If they do not end below the last
    one a file can have, one behind that is among them. -/
theorem extendLoop_frame (n : Nat) : ∀ {fuel turn cpos s t u},
    extendLoop fs a fuel turn n cpos s = some (.ok u, t) → Room (runs a fuel turn n) s →
    cpos < 2 ^ 32 →
    ∃ U : Finset Nat, U.card ≤ n ∧ (∀ w, w < uint32Max → Mapped t w → w ∈ U ∨ Mapped s w) ∧
      (cpos + n ≤ uint32Max → U = Finset.Ico cpos (cpos + n)) ∧
      (uint32Max < cpos + n → ∃ w ∈ U, uint32Max ≤ w) := by
  induction n using Nat.strongRecOn with
  | ind n ih =>
    intro fuel turn cpos s t u h hroom hlt
    by_cases hn : n = 0
    · subst hn
      obtain rfl := extendLoop_done h
      refine ⟨∅, le_refl _, fun _ _ hw => .inr hw, fun _ => by simp, fun hbig => ?_⟩
      unfold uint32Max at hbig
      omega
    · obtain ⟨start, m, el, s', fuel', hnew, -, hleaf, hroot, hroom', hrest⟩ :=
        extendLoop_turn hn hroom h
      obtain ⟨hpos, hle, hm, -⟩ := a.newClusters_ok _ _ _ _ hnew
      have hadd : cpos + m ≤ uint32Max → addW 32 cpos m = cpos + m := fun hf =>
        addW_eq (Nat.lt_succ_of_le hf)
      have hend : cpos + m + (n - m) = cpos + n := by omega
      obtain ⟨U, hcard, hframe, hfit, hbig⟩ :=
        ih (n - m) (by omega) hrest hroom' (addW_lt 32 cpos m)
      refine ⟨Finset.Ico cpos (cpos + m) ∪ U, ?_, fun w hw hmap => ?_, fun hf => ?_, fun hb => ?_⟩
      · have := Finset.card_union_le (Finset.Ico cpos (cpos + m)) U
        rw [Nat.card_Ico] at this
        omega
      · rw [Finset.mem_union, Finset.mem_Ico]
        rcases hframe w hw hmap with hU | hmap
        · exact .inl (.inr hU)
        · rw [Mapped, hroot] at hmap
          rcases hleaf.covers hw hmap with hc | hmap
          · refine .inl (.inl ⟨hc.1, ?_⟩)
            have := hc.2
            rwa [insertRecOf, Nat.mod_eq_of_lt hm] at this
          · exact .inr hmap
      · rw [hadd (by omega), hend] at hfit
        rw [hfit hf, Finset.Ico_union_Ico_eq_Ico (Nat.le_add_right _ _) (Nat.add_le_add_left hle _)]
      · by_cases hf : cpos + m ≤ uint32Max
        · rw [hadd hf, hend] at hbig
          obtain ⟨w, hw, hge⟩ := hbig hb
          exact ⟨w, Finset.mem_union_right _ hw, hge⟩
        · -- the run just inserted goes past the last cluster a file can have
          refine ⟨uint32Max, Finset.mem_union_left _ (Finset.mem_Ico.mpr ⟨?_, by omega⟩), le_refl _⟩
          unfold uint32Max
          omega

theorem extendLoop_fills (n : Nat) : ∀ {fuel turn cpos s t u},
    extendLoop fs a fuel turn n cpos s = some (.ok u, t) → Room (runs a fuel turn n) s →
    LeafOk fs 0 uint32Max s.root.iList → Short n s → cpos + n ≤ uint32Max →
    (∀ w, cpos ≤ w → w < cpos + n → recsMap fs s.root.iList.nonempty w = none) →
    (∀ w, cpos ≤ w → w < cpos + n → (recsMap fs t.root.iList.nonempty w).isSome) ∧
      (∀ w, ¬(cpos ≤ w ∧ w < cpos + n) → recsMap fs t.root.iList.nonempty w =
        recsMap fs s.root.iList.nonempty w) ∧
      (s.root.iClusters + n < 2 ^ 32 → t.root.iClusters = s.root.iClusters + n) := by
  induction n using Nat.strongRecOn with
  | ind n ih =>
    intro fuel turn cpos s t u h hroom hok hshort hfit hhole
    by_cases hn : n = 0
    · subst hn
      obtain rfl := extendLoop_done h
      exact ⟨fun w h1 h2 => by omega, fun _ _ => rfl, fun _ => rfl⟩
    · obtain ⟨start, m, el, s', fuel', hnew, hlt, hleaf, hroot, hroom', hrest⟩ :=
        extendLoop_turn hn hroom h
      obtain ⟨hpos, hle, hm, hstart, hend⟩ := a.newClusters_ok _ _ _ _ hnew
      obtain ⟨hok', hmap, hlen⟩ := hleaf.adds hok hlt ⟨hpos, hm, hstart, hend, by omega,
        fun w h1 h2 => hhole w h1 (by omega), fun x hx => by have := hshort.2 x hx; omega⟩
      have hadd : addW 32 cpos m = cpos + m := addW_eq (by unfold uint32Max at hfit; omega)
      have hlist : s'.root.iList = el := by rw [hroot]; rfl
      have hshort' : Short (n - m) s' := by
        have h1 := hshort.1
        refine ⟨by omega, fun x hx => ?_⟩
        rw [hlist] at hx
        rcases hlen x hx with hx | ⟨y, hy, hx⟩
        · omega
        · have := hshort.2 y hy
          omega
      rw [hadd] at hrest
      obtain ⟨hsome, hkeep, hcount⟩ := ih (n - m) (by omega) hrest hroom' (hlist ▸ hok') hshort'
        (by omega) fun w h1 h2 => by
          rw [hlist, hmap, if_neg (by omega)]
          exact hhole w (by omega) (by omega)
      rw [hlist] at hkeep
      refine ⟨fun w h1 h2 => ?_, fun w hw => ?_, fun hlt' => ?_⟩
      · by_cases hwm : w < cpos + m
        · -- what comes later leaves this run alone
          rw [hkeep w (by omega), hmap, if_pos ⟨h1, hwm⟩]
          rfl
        · exact hsome w (by omega) (by omega)
      · rw [hkeep w (by omega), hmap, if_neg (by omega)]
      · have hcl : s'.root.iClusters = s.root.iClusters + m := by
          rw [hroot]
          show addW 32 _ (m % 65536) = _
          rw [Nat.mod_eq_of_lt hm, addW_eq (by omega)]
        rw [hcount (by omega), hcl]
        omega

/-! ### The function -/

noncomputable def mappedClusters (fs : Filesys) (dev : Device) : Finset Nat :=
  (Finset.range uint32Max).filter fun w => (devMap fs dev w).isSome

/-- Exactly `n` clusters the file did not have are mapped, all others are as they were, and
    `i_clusters` has grown by `n`. -/
structure AddsClusters (fs : Filesys) (n : Nat) (dev dev' : Device) : Prop where
  added : ∃ S : Finset Nat, S.card = n ∧
    (∀ w ∈ S, w < uint32Max ∧ devMap fs dev w = none ∧ (devMap fs dev' w).isSome) ∧
    ∀ w, w ∉ S → devMap fs dev' w = devMap fs dev w
  clusters : dev'.inode.iClusters = dev.inode.iClusters + n

theorem extendAllocation_inv (h : extendAllocation fs a n s = some (.ok u, t)) :
    ∃ x, extendLoop fs a n 0 n (endCpos fs s.dev.inode.iSize) { s with root := s.dev.inode } =
        some (.ok (), x) ∧ t.dev.inode = x.root := by
  rw [extendAllocation] at h
  cases hr : a.readInode with
  | some e =>
    rw [hr] at h
    cases h
  | none =>
    rw [hr] at h
    obtain ⟨_, s1, hmod, h⟩ := bind_eq_ok h
    cases hmod
    obtain ⟨_, x, hloop, h⟩ := bind_eq_ok h
    obtain ⟨_, x', hget, h⟩ := bind_eq_ok h
    cases hget
    obtain rfl := writeInode_inv h
    exact ⟨x, hloop, rfl⟩

/-- The loop changes records of the inode only. -/
theorem extendLoop_depth (h : extendLoop fs a fuel turn n cpos s = some (.ok u, t))
    (hroom : Room (runs a fuel turn n) s) : t.root.iList.lTreeDepth = 0 := by
  induction n using Nat.strongRecOn generalizing fuel turn cpos s with
  | ind n ih =>
    by_cases hn : n = 0
    · subst hn
      obtain rfl := extendLoop_done h
      exact hroom.1
    · obtain ⟨start, m, el, s', fuel', hnew, -, -, -, hroom', hrest⟩ := extendLoop_turn hn hroom h
      obtain ⟨hpos, -⟩ := a.newClusters_ok _ _ _ _ hnew
      exact ih (n - m) (by omega) hrest hroom'

theorem mapped_iff {dev : Device} (hd : dev.inode.iList.lTreeDepth = 0) (w : Nat) :
    (devMap fs dev w).isSome ↔ ∃ x ∈ dev.inode.iList.nonempty, Covers eCpos eLeafClusters x w := by
  rw [devMap, treeMap, diskRecs_root hd, ← Option.ne_none_iff_isSome, ne_eq, recsMap_eq_none]
  simp

/-- The clusters of a file and `n` more that it can have and has not are not too many. -/
theorem card_mappedClusters_add {dev : Device} (hfit : cpos + n ≤ uint32Max)
    (hhole : ∀ w, cpos ≤ w → w < cpos + n → devMap fs dev w = none) :
    (mappedClusters fs dev).card + n ≤ uint32Max := by
  have hdisj : Disjoint (mappedClusters fs dev) (Finset.Ico cpos (cpos + n)) := by
    rw [Finset.disjoint_left]
    intro w h1 h2
    rw [mappedClusters, Finset.mem_filter] at h1
    rw [Finset.mem_Ico] at h2
    rw [hhole w h2.1 h2.2] at h1
    cases h1.2
  have hunion : mappedClusters fs dev ∪ Finset.Ico cpos (cpos + n) ⊆ Finset.range uint32Max := by
    intro w hw
    rcases Finset.mem_union.mp hw with hw | hw
    · exact (Finset.mem_filter.mp hw).1
    · rw [Finset.mem_Ico] at hw
      exact Finset.mem_range.mpr (by omega)
  have hle := Finset.card_le_card hunion
  rwa [Finset.card_union_of_disjoint hdisj, Finset.card_range, Nat.card_Ico,
    Nat.add_sub_cancel_left] at hle

/-- A file of 4 clusters with a hole in front of some more, and an empty record. -/
def holeFile : Dinode :=
  { smallInode 0 (listOf 0 19 [ExtentRec.zero, ⟨0, 4, 0, 0, 80⟩, ⟨20, 5, 0, 0, 800⟩]) with
    iClusters := 9
    iSize := 16384 }

/-- A file of no bytes that has a cluster. -/
def aheadFile : Dinode :=
  { smallInode 0 (listOf 0 19 [⟨0, 1, 0, 0, 80⟩]) with iClusters := 1 }

/-- An allocator that finds two clusters next to the first ones of `holeFile`, then
    one elsewhere. -/
def smallSpace : Space where
  readInode := none
  newClusters := fun turn requested =>
    if turn = 0 ∧ 1 < requested then .ok (14, 2)
    else if 0 < requested then .ok (20, 1)
    else .error .bitNotFound
  newClusters_ok := by
    intro i requested start n h
    split at h
    · next hreq =>
      cases h
      exact ⟨by decide, hreq.2, by decide, by decide, by decide⟩
    · split at h
      · next hreq =>
        cases h
        exact ⟨by decide, hreq, by decide, by decide, by decide⟩
      · cases h

theorem holeFile_clusters :
    mappedClusters smallFs (smallSt [] holeFile []).dev = Finset.range 4 ∪ Finset.Ico 20 25 := by
  ext w
  have hrecs : holeFile.iList.nonempty = [⟨0, 4, 0, 0, 80⟩, ⟨20, 5, 0, 0, 800⟩] := rfl
  have hmap := @mapped_iff smallFs (smallSt [] holeFile []).dev rfl w
  rw [show (smallSt [] holeFile []).dev.inode = holeFile from rfl, hrecs] at hmap
  simp only [mappedClusters, Finset.mem_filter, hmap, Finset.mem_union, Finset.mem_range,
    Finset.mem_Ico, List.mem_cons, List.not_mem_nil, or_false, exists_eq_or_imp, exists_eq_left,
    Covers, uint32Max]
  omega

end Ocfs2Tools.Extend
