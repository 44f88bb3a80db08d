import Ocfs2Tools.Lib.Sort
import Ocfs2Tools.Refcount.Records
import Ocfs2Tools.ExtentTree.WellFormed

/-!
# Dividing a full refcount leaf

`ocfs2_divide_leaf_refcount_block` sorts the records by the low half of their position,
looks for a cut between two neighbours outward from the middle, moves the records behind
the cut to a new leaf and sorts both leaves back. Records from different windows of
`2^32` clusters may overlap in the low half. The search compares only the two neighbours
of the cut, and adds in 32 bits; so a longer record further down may reach over the cut,
and a record that crosses into the next window is not noticed.
-/

namespace Ocfs2Tools.Refcount

open List

variable {recs : List RefcountRec} {i j cpos : Nat} {r : RefcountRec}

/-! ### The code -/

/-- `ocfs2_refcount_rec_no_intersect`; the sum is an `uint32_t`. -/
def recNoIntersect (prev next : RefcountRec) : Bool :=
  decide (addW 32 prev.lowCpos prev.rClusters ≤ next.lowCpos)

/-- The loop of `ocfs2_find_refcount_split_pos`, with `n` turns left. -/
def splitSearch (recs : List RefcountRec) (middle : Nat) : Nat → Nat → Option Nat
  | 0, _ => none
  | n + 1, delta =>
    if recNoIntersect (recs.getD (middle - delta - 1) default) (recs.getD (middle - delta) default)
    then some (middle - delta)
    -- for even counts, do not walk off the end
    else if middle + delta + 1 = recs.length then splitSearch recs middle n (delta + 1)
    else if recNoIntersect (recs.getD (middle + delta) default)
        (recs.getD (middle + delta + 1) default)
    then some (middle + delta + 1)
    else splitSearch recs middle n (delta + 1)

/-- `ocfs2_find_refcount_split_pos`: the position and the index of the cut. -/
def findRefcountSplitPos (recs : List RefcountRec) : Except Errcode (Nat × Nat) :=
  match splitSearch recs (recs.length / 2) (recs.length / 2) 0 with
  | none => .error .noSpace
  | some i => .ok ((recs.getD i default).lowCpos, i)

/-- `ocfs2_divide_leaf_refcount_block`: what it returns with `*split_cpos`, the old and the
    new leaf. -/
def divideLeafRefcountBlock (q : Qsort RefcountRec) (rb newRb : LeafBlock) :
    Except Errcode Nat × LeafBlock × LeafBlock :=
  let recs := q.run RefcountRec.lowCpos rb.rfRecords.recs
  match findRefcountSplitPos recs with
  | .error e => (.error e, { rb with rfRecords := { rb.rfRecords with recs := recs } }, newRb)
  | .ok (cpos, i) =>
    (.ok cpos, { rb with rfRecords :=
          { rb.rfRecords with recs := q.run RefcountRec.rCpos (recs.take i) } },
      ⟨cpos, { newRb.rfRecords with recs := q.run RefcountRec.rCpos (recs.drop i) }⟩)

/-! ### The cut that is taken -/

/-- The two neighbours at index `i` do not intersect, as the code sees it. -/
def CutAt (recs : List RefcountRec) (i : Nat) : Prop :=
  0 < i ∧ i < recs.length ∧ recNoIntersect (recs.getD (i - 1) default) (recs.getD i default) = true

instance (recs : List RefcountRec) (i : Nat) : Decidable (CutAt recs i) :=
  inferInstanceAs (Decidable (_ ∧ _ ∧ _))

/-- How late index `i` is looked at: the middle first, then the next one behind it, the
    one before it, and so on. -/
def searchRank (middle i : Nat) : Nat :=
  if i ≤ middle then 2 * (middle - i) else 2 * (i - middle) - 1

/-- The cut that is looked at first. -/
def FirstCut (recs : List RefcountRec) (i : Nat) : Prop :=
  CutAt recs i ∧ ∀ j, CutAt recs j → searchRank (recs.length / 2) i ≤ searchRank (recs.length / 2) j

theorem splitSearch_cut (recs : List RefcountRec) : ∀ n delta,
    n + delta = recs.length / 2 → (∀ j, CutAt recs j → 2 * delta ≤ searchRank (recs.length / 2) j) →
    match splitSearch recs (recs.length / 2) n delta with
    | some i => FirstCut recs i
    | none => ∀ j, ¬CutAt recs j := by
  intro n
  induction n with
  | zero =>
    intro delta hn hlate j hj
    have h1 := hlate j hj
    obtain ⟨hpos, hlt, -⟩ := hj
    unfold searchRank at h1
    split at h1 <;> omega
  | succ n ih =>
    intro delta hn hlate
    generalize hm : recs.length / 2 = middle at *
    rw [splitSearch]
    by_cases h1 : recNoIntersect (recs.getD (middle - delta - 1) default)
        (recs.getD (middle - delta) default) = true
    · rw [if_pos h1]
      refine ⟨⟨by omega, by omega, h1⟩, fun j hj => ?_⟩
      rw [hm]
      refine le_trans (le_of_eq ?_) (hlate j hj)
      unfold searchRank
      rw [if_pos (Nat.sub_le _ _)]
      omega
    · rw [if_neg h1]
      -- nothing before the middle: every cut is later by one
      have hlate1 : ∀ j, CutAt recs j → 2 * delta + 1 ≤ searchRank middle j := by
        intro j hj
        have h2 := hlate j hj
        have hne : searchRank middle j ≠ 2 * delta := by
          intro heq
          have hjd : j = middle - delta := by
            unfold searchRank at heq
            split at heq <;> omega
          rw [hjd] at hj
          exact h1 hj.2.2
        omega
      by_cases hend : middle + delta + 1 = recs.length
      · rw [if_pos hend]
        refine ih (delta + 1) (by omega) fun j hj => ?_
        have h2 := hlate1 j hj
        obtain ⟨hpos, hlt, -⟩ := hj
        unfold searchRank at h2 ⊢
        split at h2 <;> simp_all
        omega
      · rw [if_neg hend]
        by_cases h2 : recNoIntersect (recs.getD (middle + delta) default)
            (recs.getD (middle + delta + 1) default) = true
        · rw [if_pos h2]
          refine ⟨⟨by omega, by omega, h2⟩, fun j hj => ?_⟩
          rw [hm]
          refine le_trans (le_of_eq ?_) (hlate1 j hj)
          unfold searchRank
          rw [if_neg (by omega)]
          omega
        · rw [if_neg h2]
          refine ih (delta + 1) (by omega) fun j hj => ?_
          have h3 := hlate1 j hj
          have hne : searchRank middle j ≠ 2 * delta + 1 := by
            intro heq
            have hjd : j = middle + delta + 1 := by
              unfold searchRank at heq
              split at heq <;> omega
            rw [hjd] at hj
            exact h2 hj.2.2
          omega

/-- `ocfs2_find_refcount_split_pos` finds the first cut, if there is one. -/
theorem findRefcountSplitPos_first (h : ∃ i, CutAt recs i) : ∃ i, FirstCut recs i ∧
    findRefcountSplitPos recs = .ok ((recs.getD i default).lowCpos, i) := by
  have hcut := splitSearch_cut recs (recs.length / 2) 0 (by omega) fun j _ => by omega
  unfold findRefcountSplitPos
  cases hs : splitSearch recs (recs.length / 2) (recs.length / 2) 0 with
  | none =>
    rw [hs] at hcut
    obtain ⟨i, hi⟩ := h
    exact absurd hi (hcut i)
  | some i =>
    rw [hs] at hcut
    exact ⟨i, hcut, rfl⟩

theorem searchRank_inj {middle : Nat} (h : searchRank middle i = searchRank middle j) : i = j := by
  unfold searchRank at h
  split at h <;> split at h <;> omega

theorem FirstCut.unique (hi : FirstCut recs i) (hj : FirstCut recs j) : i = j :=
  searchRank_inj (le_antisymm (hi.2 j hj.1) (hj.2 i hi.1))

/-! ### On which side of the cut the clusters are -/

theorem low_lt_iff (hpos : 0 < r.rClusters) (hc : cpos < 2 ^ 32) :
    (∀ c, r.Has c → c % 2 ^ 32 < cpos) ↔ r.lowCpos + r.rClusters ≤ cpos := by
  unfold RefcountRec.lowCpos
  constructor
  · intro h
    by_contra hgt
    by_cases hlow : r.rCpos % 2 ^ 32 < cpos
    · -- the cluster at the cut itself
      have := h (r.rCpos + (cpos - r.rCpos % 2 ^ 32)) ⟨by omega, by
        unfold RefcountRec.stop
        omega⟩
      omega
    · exact hlow (h r.rCpos ⟨le_refl _, by
        unfold RefcountRec.stop
        omega⟩)
  · rintro h c ⟨h1, h2⟩
    unfold RefcountRec.stop at h2
    omega

/-- Every cluster of a record that starts at or above `cpos` has its low half there if the
    record does not cross into the next window. -/
theorem le_low_iff (hc : 0 < cpos) (hlow : cpos ≤ r.lowCpos) :
    (∀ c, r.Has c → cpos ≤ c % 2 ^ 32) ↔ r.lowCpos + r.rClusters ≤ 2 ^ 32 := by
  unfold RefcountRec.lowCpos at hlow ⊢
  constructor
  · intro h
    by_contra hgt
    -- the first cluster of the next window
    have := h (r.rCpos + (2 ^ 32 - r.rCpos % 2 ^ 32)) ⟨by omega, by
      unfold RefcountRec.stop
      omega⟩
    omega
  · rintro h c ⟨h1, h2⟩
    unfold RefcountRec.stop at h2
    omega

/-- The leaves are told apart by the low half of the clusters. -/
def Separated (cpos : Nat) (old new : List RefcountRec) : Prop :=
  (∀ r ∈ old, ∀ c, r.Has c → c % 2 ^ 32 < cpos) ∧ ∀ r ∈ new, ∀ c, r.Has c → cpos ≤ c % 2 ^ 32

/-- At the first cut, the records below end at or before it, and those above stay in
    their window of `2^32` clusters. `recs` is ordered by the low half. -/
def CleanCut (recs : List RefcountRec) : Prop :=
  ∃ i, FirstCut recs i ∧
    (∀ r ∈ recs.take i, r.lowCpos + r.rClusters ≤ (recs.getD i default).lowCpos) ∧
    ∀ r ∈ recs.drop i, r.lowCpos + r.rClusters ≤ 2 ^ 32

theorem lowCpos_lt (r : RefcountRec) : r.lowCpos < 2 ^ 32 := Nat.mod_lt _ (by decide)

theorem le_lowCpos_of_mem_drop (hi : i < recs.length)
    (hs : recs.Pairwise fun a b => a.lowCpos ≤ b.lowCpos) (hr : r ∈ recs.drop i) :
    (recs.getD i default).lowCpos ≤ r.lowCpos := by
  rw [drop_eq_getElem_cons hi] at hr
  rw [← getElem_eq_getD (h := hi)]
  have hs' := hs.sublist (drop_sublist i recs)
  rw [drop_eq_getElem_cons hi] at hs'
  rcases mem_cons.mp hr with rfl | hr
  · exact le_refl _
  · exact rel_of_pairwise_cons hs' hr

theorem CutAt.pos (h : CutAt recs i) (hs : recs.Pairwise fun a b => a.lowCpos ≤ b.lowCpos)
    (hp : ∀ r ∈ recs, 0 < r.rClusters) (hf : ∀ r ∈ recs, r.rClusters < 2 ^ 32) :
    0 < (recs.getD i default).lowCpos := by
  obtain ⟨hpos, hlt, hcut⟩ := h
  have hprev : recs[i - 1] ∈ recs := getElem_mem _
  have hle : recs[i - 1].lowCpos ≤ recs[i].lowCpos :=
    pairwise_iff_getElem.mp hs (i - 1) i (by omega) hlt (by omega)
  rw [recNoIntersect, decide_eq_true_eq, ← getElem_eq_getD (h := hlt),
    ← getElem_eq_getD (h := (by omega))] at hcut
  rw [← getElem_eq_getD (h := hlt)]
  have h1 := hp _ hprev
  have h2 := hf _ hprev
  by_contra h0
  rw [addW_eq (by omega)] at hcut
  omega

theorem separated_iff (h : FirstCut recs i) (hs : recs.Pairwise fun a b => a.lowCpos ≤ b.lowCpos)
    (hp : ∀ r ∈ recs, 0 < r.rClusters) (hf : ∀ r ∈ recs, r.rClusters < 2 ^ 32) :
    Separated (recs.getD i default).lowCpos (recs.take i) (recs.drop i) ↔ CleanCut recs := by
  have hlt : i < recs.length := h.1.2.1
  have hpos := h.1.pos hs hp hf
  have hold : ∀ r ∈ recs.take i, (∀ c, r.Has c → c % 2 ^ 32 < (recs.getD i default).lowCpos) ↔
      r.lowCpos + r.rClusters ≤ (recs.getD i default).lowCpos :=
    fun r hr => low_lt_iff (hp r (mem_of_mem_take hr)) (lowCpos_lt _)
  have hnew : ∀ r ∈ recs.drop i, (∀ c, r.Has c → (recs.getD i default).lowCpos ≤ c % 2 ^ 32) ↔
      r.lowCpos + r.rClusters ≤ 2 ^ 32 :=
    fun r hr => le_low_iff hpos (le_lowCpos_of_mem_drop hlt hs hr)
  constructor
  · rintro ⟨h1, h2⟩
    exact ⟨i, h, fun r hr => (hold r hr).mp (h1 r hr), fun r hr => (hnew r hr).mp (h2 r hr)⟩
  · rintro ⟨j, hj, h1, h2⟩
    obtain rfl := hj.unique h
    exact ⟨fun r hr => (hold r hr).mpr (h1 r hr), fun r hr => (hnew r hr).mpr (h2 r hr)⟩

theorem Separated.perm {old new old' new' : List RefcountRec} (h : old.Perm old')
    (h' : new.Perm new') : Separated cpos old new ↔ Separated cpos old' new' := by
  simp only [Separated, h.mem_iff, h'.mem_iff]

/-! ### The division -/

/-- A long record in the first window of `2^32` clusters and short ones, 20 clusters apart,
    in the second: a full leaf of a file system with 512-byte blocks. -/
def longRecLeaf : LeafBlock :=
  ⟨0, refcountRecsPerRb smallFs,
    ⟨0, 300, 1⟩ :: (List.range 22).map fun k => ⟨2 ^ 32 + 10 + 20 * k, 5, 1⟩⟩

def emptyLeaf : LeafBlock := ⟨0, refcountRecsPerRb smallFs, []⟩

/-- The long record stays in the old leaf, although it covers clusters behind the cut; a
    clean cut exists, at the record that starts at 310. -/
theorem longRecLeaf_not_separated : RecsOk longRecLeaf.rfRecords.recs ∧
      longRecLeaf.rfRecords.recs.length = longRecLeaf.rfRecords.rlCount ∧
      (divideLeafRefcountBlock (Qsort.insertion _) longRecLeaf emptyLeaf).1 = .ok 210 ∧
      ⟨0, 300, 1⟩ ∈
        (divideLeafRefcountBlock (Qsort.insertion _) longRecLeaf emptyLeaf).2.1.rfRecords.recs ∧
      RefcountRec.Has ⟨0, 300, 1⟩ 250 ∧
      Separated 310 (longRecLeaf.rfRecords.recs.take 16) (longRecLeaf.rfRecords.recs.drop 16) := by
  refine ⟨by decide, by decide, by decide +kernel, by decide +kernel, by decide, ?_, ?_⟩
  · have hrecs : ∀ r ∈ longRecLeaf.rfRecords.recs.take 16, 0 < r.rClusters ∧
        r.lowCpos + r.rClusters ≤ 310 := by decide
    intro r hr
    exact (low_lt_iff (hrecs r hr).1 (by decide)).mpr (hrecs r hr).2
  · have hrecs : ∀ r ∈ longRecLeaf.rfRecords.recs.drop 16, 310 ≤ r.lowCpos ∧
        r.lowCpos + r.rClusters ≤ 2 ^ 32 := by decide
    intro r hr
    exact (le_low_iff (by decide) (hrecs r hr).1).mpr (hrecs r hr).2

/-- **`ocfs2_divide_leaf_refcount_block`**, whatever order `qsort` leaves equal keys in: the old
    records are in the two leaves, each ordered by the 64-bit position, and the leaves are told
    apart by the low half of the clusters exactly if the cut that is found first is clean. -/
theorem divideLeafRefcountBlock_separates_iff (q : Qsort RefcountRec) (rb newRb : LeafBlock)
    (hok : RecsOk rb.rfRecords.recs)
    (hsplit : ∃ i, CutAt (q.run RefcountRec.lowCpos rb.rfRecords.recs) i) :
    ∃ cpos old new, divideLeafRefcountBlock q rb newRb = (.ok cpos, old, new) ∧
      (old.rfRecords.recs ++ new.rfRecords.recs).Perm rb.rfRecords.recs ∧
      (old.rfRecords.recs.Pairwise fun a b => a.rCpos ≤ b.rCpos) ∧
      (new.rfRecords.recs.Pairwise fun a b => a.rCpos ≤ b.rCpos) ∧ new.rfCpos = cpos ∧
      (Separated cpos old.rfRecords.recs new.rfRecords.recs ↔
        CleanCut (q.run RefcountRec.lowCpos rb.rfRecords.recs)) := by
  obtain ⟨i, hfirst, hfind⟩ := findRefcountSplitPos_first hsplit
  simp only [divideLeafRefcountBlock, hfind]
  refine ⟨_, _, _, rfl, ?_, q.sorted _ _, q.sorted _ _, rfl, ?_⟩
  · refine ((q.perm _ _).append (q.perm _ _)).trans ?_
    rw [List.take_append_drop]
    exact q.perm _ _
  · refine (Separated.perm (q.perm _ _) (q.perm _ _)).trans ?_
    refine separated_iff hfirst (q.sorted _ _) ?_ ?_
    · exact fun r hr => hok.pos r (q.mem_run.mp hr)
    · exact fun r hr => hok.fits r (q.mem_run.mp hr)

/-- Short records of one window: a full leaf whose first cut is clean. -/
def shortRecLeaf : LeafBlock :=
  ⟨0, refcountRecsPerRb smallFs, (List.range 23).map fun k => ⟨10 + 20 * k, 5, 1⟩⟩

theorem shortRecLeaf_separated : ∃ cpos old new,
    divideLeafRefcountBlock (Qsort.insertion _) shortRecLeaf emptyLeaf = (.ok cpos, old, new) ∧
      Separated cpos old.rfRecords.recs new.rfRecords.recs := by
  have hcut : ∃ i, CutAt ((Qsort.insertion _).run RefcountRec.lowCpos shortRecLeaf.rfRecords.recs)
      i := ⟨11, by decide +kernel⟩
  have hok : RecsOk shortRecLeaf.rfRecords.recs := by decide
  obtain ⟨cpos, old, new, hrun, -, -, -, -, hsep⟩ :=
    divideLeafRefcountBlock_separates_iff (Qsort.insertion _) shortRecLeaf emptyLeaf hok hcut
  refine ⟨cpos, old, new, hrun, hsep.mpr ⟨11, ⟨by decide +kernel, fun j _ => ?_⟩, ?_, ?_⟩⟩
  · exact Nat.zero_le _
  · decide +kernel
  · decide +kernel

end Ocfs2Tools.Refcount
