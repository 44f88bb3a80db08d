import Ocfs2Tools.ExtentTree.WellFormed
import Ocfs2Tools.Refcount.Records

/-!
# The record list of a refcount leaf in `fsck.ocfs2`

`check_rl` removes a record whose last cluster is outside the volume, and one that starts
before the record before it ends; every question is answered yes. For the first check the
number of the cluster is cut to 32 bits, the first cluster behind the volume passes it, and so
does a record of length 0. What is left is right exactly if each record that passes, and
starts late enough, lies inside the volume.
-/

namespace Ocfs2Tools.Refcount

open List

variable {fs : Filesys} {cEnd : Nat} {r : RefcountRec}

/-- `struct ocfs2_refcount_list` with all the slots of its block. -/
structure RawList where
  rlCount : Nat
  rlUsed : Nat
  rlRecs : List RefcountRec

def RawList.recs (rl : RawList) : List RefcountRec := rl.rlRecs.take rl.rlUsed

/-- The list, `*c_end` and `*changed`. -/
structure RlState where
  rl : RawList
  cEnd : Nat
  changed : Bool

/-- The range check of a record: `ocfs2_clusters_to_blocks` takes a `uint32_t`. -/
def outsideVolume (fs : Filesys) (r : RefcountRec) : Bool :=
  outOfRange fs (clustersToBlocks fs (subW 64 (addW 64 r.rCpos r.rClusters) 1 % 2 ^ 32))

/-- The label `remove_rec`, with `left` records behind slot `i`: they move up, and the slot of
    the last one is cleared. Behind the last record nothing moves. -/
def RlState.removeRec (s : RlState) (i left : Nat) : RlState :=
  { s with
    rl := { s.rl with
      rlUsed := s.rl.rlUsed - 1
      rlRecs :=
        if left = 0 then s.rl.rlRecs
        else s.rl.rlRecs.take i ++ ((s.rl.rlRecs.drop (i + 1)).take left ++
          default :: s.rl.rlRecs.drop (i + 1 + left)) }
    changed := true }

/-- The loop from slot `i` on, with `max_recs - i` turns left. -/
def checkRecs (fs : Filesys) : Nat → Nat → RlState → RlState
  | 0, _, s => s
  | left + 1, i, s =>
    let r := s.rl.rlRecs.getD i default
    if outsideVolume fs r ∨ r.rCpos < s.cEnd then checkRecs fs left i (s.removeRec i left)
    else checkRecs fs left (i + 1) { s with cEnd := addW 64 r.rCpos r.rClusters }

/-- `check_rl`. -/
def checkRl (fs : Filesys) (rl : RawList) (cEnd : Nat) : RlState :=
  let count := min rl.rlCount (refcountRecsPerRb fs)
  let used := min rl.rlUsed count
  checkRecs fs used 0
    ⟨⟨count, used, rl.rlRecs⟩, cEnd, decide (count < rl.rlCount ∨ used < rl.rlUsed)⟩

/-! ### What the loop leaves -/

def kept (fs : Filesys) : Nat → List RefcountRec → List RefcountRec
  | _, [] => []
  | cEnd, r :: rs =>
    if outsideVolume fs r ∨ r.rCpos < cEnd then kept fs cEnd rs
    else r :: kept fs (addW 64 r.rCpos r.rClusters) rs

theorem kept_length_le : ∀ {cEnd} (rs), (kept fs cEnd rs).length ≤ rs.length
  | _, [] => Nat.le_refl _
  | cEnd, r :: rs => by
    rw [kept]
    split
    · exact Nat.le_succ_of_le (kept_length_le rs)
    · exact Nat.succ_le_succ (kept_length_le rs)

theorem removeRec_recs {s : RlState} {pre cur rest : List RefcountRec}
    (h : s.rl.rlRecs = pre ++ (r :: cur ++ rest)) :
    ∃ rest', (s.removeRec pre.length cur.length).rl.rlRecs = pre ++ (cur ++ rest') := by
  simp only [RlState.removeRec, h]
  split
  · rename_i h0
    exact ⟨r :: rest, by simp [length_eq_zero_iff.mp h0]⟩
  · refine ⟨default :: rest, ?_⟩
    rw [Nat.add_assoc, take_left, drop_length_add_append, drop_length_add_append, Nat.add_comm 1]
    simp

theorem checkRecs_rl : ∀ (cur pre : List RefcountRec) {rest : List RefcountRec} {s : RlState},
    s.rl.rlRecs = pre ++ (cur ++ rest) → s.rl.rlUsed = pre.length + cur.length →
    ∃ tail, (checkRecs fs cur.length pre.length s).rl = ⟨s.rl.rlCount,
      (pre ++ kept fs s.cEnd cur).length, pre ++ kept fs s.cEnd cur ++ tail⟩
  | [], _, rest, s, hrecs, hused => ⟨rest, by
    obtain ⟨⟨count, used, recs⟩, _, _⟩ := s
    simpa [checkRecs, kept] using ⟨hused, hrecs⟩⟩
  | r :: cur, pre, rest, s, hrecs, hused => by
    have hr : s.rl.rlRecs.getD pre.length default = r := by simp [hrecs]
    rw [length_cons, checkRecs, hr, kept]
    rw [length_cons] at hused
    split
    · obtain ⟨rest', hrest⟩ := removeRec_recs hrecs
      exact checkRecs_rl cur pre hrest (by simp only [RlState.removeRec]; omega)
    · -- the record joins those before the next slot
      have hrecs' : s.rl.rlRecs = pre ++ [r] ++ (cur ++ rest) := by simp [hrecs]
      have ih := checkRecs_rl cur (pre ++ [r]) (s := { s with cEnd := addW 64 r.rCpos r.rClusters })
        hrecs' (by simp only [length_append, length_singleton]; omega)
      simpa using ih

/-! ### When that is right -/

/-- The record is not empty and lies inside the volume. -/
def Inside (fs : Filesys) (r : RefcountRec) : Prop :=
  0 < r.rClusters ∧ clustersToBlocks fs r.stop ≤ fs.fsBlocks

/-- The records in use are counted, lie inside the volume and follow one another from `cEnd` on. -/
structure RlOk (fs : Filesys) (cEnd : Nat) (rl : RawList) : Prop where
  counted : rl.recs.length = rl.rlUsed
  used_le : rl.rlUsed ≤ rl.rlCount
  inside : ∀ r ∈ rl.recs, Inside fs r
  start : ∀ r ∈ rl.recs, cEnd ≤ r.rCpos
  ordered : rl.recs.Pairwise fun a b => a.stop ≤ b.rCpos

/-- Each record that passes the range check, and does not start before the one that was passed
    last ends, lies inside the volume. -/
def RangeChecked (fs : Filesys) : Nat → List RefcountRec → Prop
  | _, [] => True
  | cEnd, r :: rs =>
    if outsideVolume fs r ∨ r.rCpos < cEnd then RangeChecked fs cEnd rs
    else Inside fs r ∧ RangeChecked fs r.stop rs

theorem Inside.addW_eq (h : Inside fs r) (hfs : fs.fsBlocks < 2 ^ 64) :
    addW 64 r.rCpos r.rClusters = r.stop := by
  have h1 : r.stop ≤ r.stop * fs.bpc := Nat.le_mul_of_pos_right _ fs.bpc_pos
  have h2 : r.stop * fs.bpc ≤ fs.fsBlocks := h.2
  exact Ocfs2Tools.addW_eq (by unfold RefcountRec.stop at *; omega)

theorem rangeChecked_iff (hfs : fs.fsBlocks < 2 ^ 64) : ∀ {rs cEnd},
    RangeChecked fs cEnd rs ↔ ∀ r ∈ kept fs cEnd rs, Inside fs r
  | [], _ => by simp [RangeChecked, kept]
  | r :: rs, cEnd => by
    rw [RangeChecked, kept]
    split
    · exact rangeChecked_iff hfs
    · rw [forall_mem_cons, and_congr_right_iff]
      intro hr
      rw [hr.addW_eq hfs]
      exact rangeChecked_iff hfs

theorem kept_ordered (hfs : fs.fsBlocks < 2 ^ 64) : ∀ {rs cEnd},
    (∀ r ∈ kept fs cEnd rs, Inside fs r) → (∀ r ∈ kept fs cEnd rs, cEnd ≤ r.rCpos) ∧
      (kept fs cEnd rs).Pairwise fun a b => a.stop ≤ b.rCpos
  | [], _, _ => by simp [kept]
  | r :: rs, cEnd, h => by
    by_cases hgo : outsideVolume fs r ∨ r.rCpos < cEnd
    · rw [kept, if_pos hgo] at h ⊢
      exact kept_ordered hfs h
    · rw [kept, if_neg hgo, forall_mem_cons] at h
      rw [h.1.addW_eq hfs] at h
      obtain ⟨h1, h2⟩ := kept_ordered hfs h.2
      have hstart : cEnd ≤ r.rCpos := Nat.not_lt.mp fun hlt => hgo (.inr hlt)
      rw [kept, if_neg hgo, h.1.addW_eq hfs]
      refine ⟨forall_mem_cons.mpr ⟨hstart, fun x hx => ?_⟩, pairwise_cons.mpr ⟨h1, h2⟩⟩
      exact le_trans hstart (le_trans (Nat.le_add_right ..) (h1 x hx))

/-- **What `check_rl` leaves is right exactly if** each record that passes the range check and
    starts late enough lies inside the volume. -/
theorem checkRl_ok_iff (hfs : fs.fsBlocks < 2 ^ 64) {rl : RawList}
    (hslots : rl.rlRecs.length = refcountRecsPerRb fs) :
    RlOk fs cEnd (checkRl fs rl cEnd).rl ↔ RangeChecked fs cEnd
      (rl.rlRecs.take (min rl.rlUsed (min rl.rlCount (refcountRecsPerRb fs)))) := by
  generalize hcount : min rl.rlCount (refcountRecsPerRb fs) = count
  generalize hcur : rl.rlRecs.take (min rl.rlUsed count) = cur
  have hlen : cur.length = min rl.rlUsed count := by
    rw [← hcur, length_take]
    omega
  obtain ⟨tail, hrun⟩ : ∃ tail, (checkRl fs rl cEnd).rl =
      ⟨count, (kept fs cEnd cur).length, kept fs cEnd cur ++ tail⟩ := by
    rw [checkRl, hcount, ← hlen]
    exact checkRecs_rl cur [] (by rw [← hcur]; exact (take_append_drop ..).symm)
      (Nat.zero_add _).symm
  have hrecs : (checkRl fs rl cEnd).rl.recs = kept fs cEnd cur := by
    rw [hrun]
    exact take_left ..
  rw [rangeChecked_iff hfs, ← hrecs]
  constructor
  · exact fun h => h.inside
  · intro hin
    rw [hrecs] at hin
    obtain ⟨h1, h2⟩ := kept_ordered hfs hin
    refine ⟨?_, ?_, hrecs ▸ hin, hrecs ▸ h1, hrecs ▸ h2⟩
    · rw [hrecs, hrun]
    · rw [hrun]
      exact le_trans (kept_length_le cur) (hlen ▸ min_le_right ..)

def slots (recs : List RefcountRec) : List RefcountRec :=
    recs ++ replicate (23 - recs.length) default

/-- A record that starts inside the one before it goes. -/
theorem checkRl_ok_iff_collision : smallFs.fsBlocks < 2 ^ 64 ∧
    (slots [⟨5, 4, 1⟩, ⟨8, 2, 1⟩]).length = refcountRecsPerRb smallFs ∧
    RlOk smallFs 3 (checkRl smallFs ⟨23, 2, slots [⟨5, 4, 1⟩, ⟨8, 2, 1⟩]⟩ 3).rl := by
  refine ⟨by decide, by decide, (checkRl_ok_iff (by decide) (by decide)).mpr ?_⟩
  show RangeChecked smallFs 3 [⟨5, 4, 1⟩, ⟨8, 2, 1⟩]
  rw [RangeChecked, if_neg (by decide), RangeChecked, if_pos (by decide)]
  exact ⟨⟨by decide, by decide⟩, trivial⟩

/-- A record of length 0 stays. -/
theorem checkRl_keeps_empty : ¬RlOk smallFs 0 (checkRl smallFs ⟨23, 1, slots [⟨5, 0, 1⟩]⟩ 0).rl :=
  fun h => absurd (h.inside ⟨5, 0, 1⟩ (by decide)).1 (by decide)

end Ocfs2Tools.Refcount
