import Ocfs2Tools.ExtentTree.Edge
import Ocfs2Tools.Truncate.Model

/-!
# What a walk with `truncate_iterate` makes of a tree

`cut` computes, from a tree in memory, the list, the blocks and the releases that the
walk leaves. It follows the code where that goes wrong, too: a leaf that starts with
an empty record is counted as empty once one of its records changes, and slots behind
`l_next_free_rec` count as records if they are not clear. What is given back is right
in any case.
-/

namespace Ocfs2Tools

open List ExtentRec

variable {fs : Filesys} {N : Nat}
  {r : ExtentRec} {recs rs kept zs pre : List ExtentRec} {lo hi d : Nat} {b right : Bool}
  {el : ExtentList} {ks : List Node} {k : Node}

/-! ### One record -/

def cutRec (N : Nat) (r : ExtentRec) : ExtentRec :=
  if r.eCpos + r.eLeafClusters ≤ N then r
  else if N ≤ r.eCpos then ExtentRec.zero
  else { r with eLeafClusters := N - r.eCpos }

def releaseOf (fs : Filesys) (r : ExtentRec) (start len : Nat) : Release :=
  if fs.refcountTree = false ∨ hasFlag r.eFlags extRefcounted = false then .clusters start len
  else .refcount (blocksToClusters fs start) len

def cutFreed (fs : Filesys) (N : Nat) (r : ExtentRec) : List Release :=
  if r.eCpos + r.eLeafClusters ≤ N then []
  else if N ≤ r.eCpos then [releaseOf fs r r.eBlkno r.eLeafClusters]
  else [releaseOf fs r (r.eBlkno + clustersToBlocks fs (N - r.eCpos))
    (r.eCpos + r.eLeafClusters - N)]

theorem cutRec_below (h : r.eCpos + r.eLeafClusters ≤ N) : cutRec N r = r := by
  rw [cutRec, if_pos h]

theorem cutRec_above (h : N ≤ r.eCpos) (hpos : 0 < r.eLeafClusters) :
    cutRec N r = ExtentRec.zero := by
  rw [cutRec, if_neg (by omega), if_pos h]

theorem cutRec_mid (h : r.eCpos < N) (h' : N < r.eCpos + r.eLeafClusters) :
    cutRec N r = { r with eLeafClusters := N - r.eCpos } := by
  rw [cutRec, if_neg (by omega), if_neg (by omega)]

theorem cutRec_clusters_le (N : Nat) (r : ExtentRec) :
    (cutRec N r).eLeafClusters ≤ r.eLeafClusters := by
  unfold cutRec
  split
  · exact le_refl _
  · split
    · exact Nat.zero_le _
    · show N - r.eCpos ≤ r.eLeafClusters
      omega

def cutRecs (N : Nat) (recs : List ExtentRec) : List ExtentRec :=
  (recs.map (cutRec N)).filter fun r => !isEmptyExtent r

theorem cutRecs_append (N : Nat) (as bs : List ExtentRec) :
    cutRecs N (as ++ bs) = cutRecs N as ++ cutRecs N bs := by
  simp [cutRecs]

theorem cutRecs_below (hs : Spaced eCpos eLeafClusters lo recs hi)
    (h : ∀ r ∈ recs, r.eCpos + r.eLeafClusters ≤ N) : cutRecs N recs = recs := by
  have hmap : recs.map (cutRec N) = recs := by
    refine (map_congr_left fun r hr => ?_).trans (map_id _)
    exact cutRec_below (h r hr)
  rw [cutRecs, hmap, filter_eq_self]
  intro r hr
  have := (hs.mem_bounds r hr).2.1
  simp only [isEmptyExtent, Bool.not_eq_true', beq_eq_false_iff_ne]
  omega

theorem cutRecs_above (h : ∀ r ∈ recs, N ≤ r.eCpos) : cutRecs N recs = [] := by
  rw [cutRecs, filter_eq_nil_iff]
  intro r hr
  obtain ⟨x, hx, rfl⟩ := mem_map.mp hr
  have hz : (cutRec N x).eLeafClusters = 0 := by
    unfold cutRec
    have := h x hx
    split
    · omega
    · rfl
  simp [isEmptyExtent, hz]

theorem covers_cutRec {v : Nat} : Covers eCpos eLeafClusters (cutRec N r) v ↔ v < N ∧
    Covers eCpos eLeafClusters r v := by
  unfold cutRec Covers
  split
  · omega
  · split
    · simp only [ExtentRec.zero]
      omega
    · show (r.eCpos ≤ v ∧ v < r.eCpos + (N - r.eCpos)) ↔ _
      omega

theorem phys_cutRec (r : ExtentRec) (v : Nat) :
    (cutRec N r).phys fs v = if v < N then r.phys fs v else none := by
  unfold ExtentRec.phys
  simp only [covers_cutRec]
  by_cases hv : v < N
  · by_cases hc : Covers eCpos eLeafClusters r v
    · -- a record that still covers something has only lost clusters
      have hsame : (cutRec N r).eCpos = r.eCpos ∧ (cutRec N r).eBlkno = r.eBlkno ∧
          (cutRec N r).eFlags = r.eFlags := by
        have := hc.1
        unfold cutRec
        split
        · exact ⟨rfl, rfl, rfl⟩
        · rw [if_neg (by omega)]
          exact ⟨rfl, rfl, rfl⟩
      rw [if_pos ⟨hv, hc⟩, if_pos hv, if_pos hc, hsame.1, hsame.2.1, hsame.2.2]
    · rw [if_neg (fun h => hc h.2), if_pos hv, if_neg hc]
  · rw [if_neg (fun h => hv h.1), if_neg hv]

theorem recsMap_cons (r : ExtentRec) (recs : List ExtentRec) (v : Nat) :
    recsMap fs (r :: recs) v = (r.phys fs v).or (recsMap fs recs v) := by
  simp only [recsMap, findSome?_cons]
  cases r.phys fs v <;> rfl

theorem recsMap_filter (recs : List ExtentRec) (v : Nat) :
    recsMap fs (recs.filter fun r => !isEmptyExtent r) v = recsMap fs recs v := by
  induction recs with
  | nil => rfl
  | cons r recs ih =>
    by_cases he : isEmptyExtent r = true
    · have hz : r.eLeafClusters = 0 := by simpa [isEmptyExtent] using he
      have hnc : ¬ Covers eCpos eLeafClusters r v := by
        unfold Covers
        omega
      rw [filter_cons_of_neg (by simp [he]), ih, recsMap_cons, ExtentRec.phys, if_neg hnc,
        Option.none_or]
    · rw [filter_cons_of_pos (by simp [he]), recsMap_cons, recsMap_cons, ih]

theorem recsMap_cutRecs (recs : List ExtentRec) (v : Nat) :
    recsMap fs (cutRecs N recs) v = if v < N then recsMap fs recs v else none := by
  rw [cutRecs, recsMap_filter]
  induction recs with
  | nil => simp [recsMap]
  | cons r recs ih =>
    rw [map_cons, recsMap_cons, ih, phys_cutRec, recsMap_cons]
    by_cases hv : v < N
    · simp [hv]
    · simp [hv]

theorem cutRecs_ne (hs : Spaced eCpos eLeafClusters lo recs hi) (hr : r ∈ recs)
    (hN : r.eCpos < N) : cutRecs N recs ≠ [] := by
  intro hnil
  have hpos := (hs.mem_bounds r hr).2.1
  have hc : cutRec N r ∈ cutRecs N recs := by
    refine mem_filter.mpr ⟨mem_map_of_mem hr, ?_⟩
    have h0 : (cutRec N r).eLeafClusters ≠ 0 := by
      have := (covers_cutRec).mpr ⟨hN, le_refl _, by omega⟩
      have h2 := this.1
      have h3 := this.2
      omega
    simp [isEmptyExtent, h0]
  rw [hnil] at hc
  cases hc

/-! ### Counting the records of a changed list -/

/-- How many slots behind the records of a list would be counted with them. -/
def staleCount (treeDepth : Nat) (rest : List ExtentRec) : Nat :=
  (rest.findIdx? fun r => recClusters treeDepth r == 0).getD 0

/-- There is a slot behind the records that is not clear, and a clear one behind it. -/
def Stale (treeDepth : Nat) (el : ExtentList) : Prop :=
  staleCount treeDepth (el.lRecs.drop el.lNextFreeRec) ≠ 0

instance (treeDepth : Nat) (el : ExtentList) : Decidable (Stale treeDepth el) :=
  inferInstanceAs (Decidable (_ ≠ _))

@[simp] theorem recountRecs_lTreeDepth (d : Nat) (el : ExtentList) :
    (recountRecs d el).lTreeDepth = el.lTreeDepth := by
  unfold recountRecs
  split <;> rfl

@[simp] theorem recountRecs_lRecs (d : Nat) (el : ExtentList) :
    (recountRecs d el).lRecs = el.lRecs := by
  unfold recountRecs
  split <;> rfl

@[simp] theorem finishEl_lTreeDepth (d : Nat) (b : Bool) (el : ExtentList) (rs : List ExtentRec) :
    (finishEl d b el rs).lTreeDepth = el.lTreeDepth := by
  cases b <;> simp [finishEl]

theorem finishEl_lRecs (d : Nat) (b : Bool) (el : ExtentList) (rs : List ExtentRec) :
    (finishEl d b el rs).lRecs = rs ++ el.lRecs.drop el.lNextFreeRec := by
  cases b <;> simp [finishEl]

theorem finishEl_lCount (hlen : rs.length = el.live.length) (hle : el.lNextFreeRec ≤ el.lCount) :
    (finishEl d b el rs).lCount = el.lCount := by
  rw [ExtentList.live_length hle] at hlen
  unfold ExtentList.lCount at *
  rw [finishEl_lRecs, length_append, length_drop]
  omega

theorem finishEl_le (hlen : rs.length = el.live.length) (hle : el.lNextFreeRec ≤ el.lCount) :
    (finishEl d b el rs).lNextFreeRec ≤ (finishEl d b el rs).lCount := by
  have hc := finishEl_lCount (d := d) (b := b) hlen hle
  cases b with
  | false =>
    rw [hc]
    exact hle
  | true =>
    simp only [finishEl, recountRecs, if_true]
    split
    · rename_i i hi
      exact le_of_lt (findIdx?_eq_some_iff_findIdx_eq.mp hi).1
    · simp only [ExtentList.lCount] at hc hle ⊢
      simp only [finishEl_lRecs] at hc
      omega

theorem finishEl_first {z : ExtentRec} (hz : recClusters d z = 0) :
    (finishEl d true el (z :: rs)).lNextFreeRec = 0 := by
  simp [finishEl, recountRecs, findIdx?_cons, hz]

section Kept

variable (hkept : ∀ r ∈ kept, recClusters d r ≠ 0) (hzs : ∀ r ∈ zs, recClusters d r = 0)
  (hlen : (kept ++ zs).length = el.live.length) (hle : el.lNextFreeRec ≤ el.lCount)

include hkept hzs hlen hle

/-- The records of a changed list: what is left, and then, if nothing was cleared, the
    stale slots. -/
theorem finishEl_live : ∃ stale, (finishEl d true el (kept ++ zs)).live = kept ++ stale ∧
      (∀ r ∈ stale, recClusters d r ≠ 0) ∧ (stale ≠ [] ↔ zs = [] ∧ Stale d el) ∧
      (finishEl d true el (kept ++ zs)).lNextFreeRec = (kept ++ stale).length := by
  have hk : kept.findIdx? (fun r => recClusters d r == 0) = none := by
    rw [findIdx?_eq_none_iff]
    intro r hr
    simp [hkept r hr]
  rw [ExtentList.live_length hle] at hlen
  generalize hrest : el.lRecs.drop el.lNextFreeRec = rest
  have hfind : ((kept ++ zs) ++ rest).findIdx? (fun r => recClusters d r == 0) =
      ((zs ++ rest).findIdx? fun r => recClusters d r == 0).map (· + kept.length) := by
    rw [append_assoc, findIdx?_append, hk, Option.none_or]
  cases zs with
  | cons z zs =>
    have h0 : ((z :: zs ++ rest).findIdx? fun r => recClusters d r == 0) = some 0 := by
      simp [findIdx?_cons, hzs z (by simp)]
    have hnf : (finishEl d true el (kept ++ z :: zs)).lNextFreeRec = kept.length := by
      simp only [finishEl, if_true, recountRecs, hrest, hfind, h0]
      simp
    rw [ExtentList.live, hnf, finishEl_lRecs]
    simp
  | nil =>
    simp only [append_nil, nil_append] at hfind ⊢
    have hstale : Stale d el ↔ staleCount d rest ≠ 0 := by rw [Stale, hrest]
    have hnf : (finishEl d true el kept).lNextFreeRec = kept.length + staleCount d rest := by
      simp only [finishEl, if_true, recountRecs, hrest, hfind, staleCount]
      cases rest.findIdx? (fun r => recClusters d r == 0) with
      | none => simpa using hlen.symm
      | some j => simp [Nat.add_comm]
    have hbound : staleCount d rest ≤ rest.length := by
      unfold staleCount
      cases h : rest.findIdx? (fun r => recClusters d r == 0) with
      | none => simp
      | some j => exact le_of_lt (findIdx?_eq_some_iff_findIdx_eq.mp h).1
    refine ⟨rest.take (staleCount d rest), ?_, ?_, ?_, ?_⟩
    · rw [ExtentList.live, hnf, finishEl_lRecs, hrest, take_length_add_append]
    · intro r hr
      unfold staleCount at hr
      cases h : rest.findIdx? (fun r => recClusters d r == 0) with
      | none =>
        rw [h] at hr
        simp at hr
      | some j =>
        rw [h] at hr
        obtain ⟨i, hi, rfl⟩ := mem_iff_getElem.mp hr
        obtain ⟨_, _, hlt⟩ := findIdx?_eq_some_iff_getElem.mp h
        have hij : i < j := by
          have := hi
          simp only [Option.getD_some, length_take] at this
          omega
        have := hlt i hij
        simpa using this
    · rw [hstale]
      constructor
      · intro hne
        refine ⟨trivial, fun h0 => hne ?_⟩
        rw [h0, take_zero]
      · rintro ⟨-, h0⟩ hnil
        have := congrArg List.length hnil
        rw [length_take] at this
        simp only [length_nil] at this
        omega
    · rw [length_append, length_take]
      omega

theorem finishEl_pos (hne : kept ≠ []) : (finishEl d b el (kept ++ zs)).lNextFreeRec ≠ 0 := by
  have hpos : 0 < kept.length := length_pos_iff.mpr hne
  cases b with
  | true =>
    obtain ⟨stale, -, -, -, hnf⟩ := finishEl_live hkept hzs hlen hle
    rw [hnf, length_append]
    omega
  | false =>
    rw [ExtentList.live_length hle, length_append] at hlen
    show el.lNextFreeRec ≠ 0
    omega

end Kept

/-! ### The whole tree -/

/-- The list, the blocks below it and the releases, oldest first, that the walk leaves. -/
structure Cut where
  el : ExtentList
  kids : List Node
  log : List Release

/-- Does a record of the list reach behind the new end? -/
def cutChanged (N d : Nat) (el : ExtentList) : Bool :=
  el.live.any fun r => decide (N < r.eCpos + recClusters d r)

/-- An interior record with the block it leads to, of whose list `c` is left. -/
def cutPair (N : Nat) (c : Cut) (r : ExtentRec) (k : Node) : ExtentRec × List Node × List Release :=
  if r.eCpos + r.eIntClusters ≤ N then (r, [k], [])
  else if N ≤ r.eCpos ∨ c.el.lNextFreeRec = 0 then
    (ExtentRec.zero, [], c.log ++ [.extentBlock k.eb.hBlkno])
  else (r.setIntClusters (N - r.eCpos), [.mk { k.eb with hList := c.el } c.kids], c.log)

/-- What the walk makes of a tree of depth `d`. -/
def cut (fs : Filesys) (N : Nat) : Nat → ExtentList → List Node → Cut
  | 0, el, _ =>
    ⟨finishEl 0 (cutChanged N 0 el) el (el.live.map (cutRec N)), [],
      el.live.flatMap (cutFreed fs N)⟩
  | d + 1, el, ks =>
    let outs := List.zipWith (fun r k => cutPair N (cut fs N d k.eb.hList k.kids) r k) el.live ks
    ⟨finishEl (d + 1) (cutChanged N (d + 1) el) el (outs.map fun o => o.1),
      outs.flatMap fun o => o.2.1, outs.flatMap fun o => o.2.2⟩

theorem cutChanged_false :
    cutChanged N d el = false ↔ ∀ r ∈ el.live, r.eCpos + recClusters d r ≤ N := by
  simp [cutChanged]

theorem cutChanged_true :
    cutChanged N d el = true ↔ ∃ r ∈ el.live, N < r.eCpos + recClusters d r := by
  simp [cutChanged]

variable {c : Cut}

theorem cutPair_below (k : Node) (h : r.eCpos + r.eIntClusters ≤ N) :
    cutPair N c r k = (r, [k], []) := by
  rw [cutPair, if_pos h]

theorem cutPair_gone (k : Node) (h : N < r.eCpos + r.eIntClusters)
    (h' : N ≤ r.eCpos ∨ c.el.lNextFreeRec = 0) :
    cutPair N c r k = (ExtentRec.zero, [], c.log ++ [.extentBlock k.eb.hBlkno]) := by
  rw [cutPair, if_neg (by omega), if_pos h']

theorem cutPair_mid (k : Node) (h : N < r.eCpos + r.eIntClusters) (h1 : r.eCpos < N)
    (h2 : c.el.lNextFreeRec ≠ 0) :
    cutPair N c r k = (r.setIntClusters (N - r.eCpos), [.mk { k.eb with hList := c.el } c.kids],
      c.log) := by
  rw [cutPair, if_neg (by omega), if_neg (by omega)]

section Outs

variable (fs N) (d : Nat)

/-- What the walk makes of the records `rs`, which lead to `ks`. -/
def cutOuts (rs : List ExtentRec) (ks : List Node) : List (ExtentRec × List Node × List Release) :=
  List.zipWith (fun r k => cutPair N (cut fs N d k.eb.hList k.kids) r k) rs ks

variable {fs N d}

theorem cut_succ (el : ExtentList) (ks : List Node) : cut fs N (d + 1) el ks =
    ⟨finishEl (d + 1) (cutChanged N (d + 1) el) el ((cutOuts fs N d el.live ks).map fun o => o.1),
      (cutOuts fs N d el.live ks).flatMap fun o => o.2.1,
      (cutOuts fs N d el.live ks).flatMap fun o => o.2.2⟩ := rfl

theorem cut_kids (el : ExtentList) (ks : List Node) : (cut fs N (d + 1) el ks).kids =
    (cutOuts fs N d el.live ks).flatMap fun o => o.2.1 := rfl

theorem cut_log (el : ExtentList) (ks : List Node) : (cut fs N (d + 1) el ks).log =
    (cutOuts fs N d el.live ks).flatMap fun o => o.2.2 := rfl

theorem cutOuts_cons (r : ExtentRec) (rs : List ExtentRec) (k : Node) (ks : List Node) :
    cutOuts fs N d (r :: rs) (k :: ks) =
      cutPair N (cut fs N d k.eb.hList k.kids) r k :: cutOuts fs N d rs ks := rfl

theorem cutOuts_append {rs' : List ExtentRec} {ks' : List Node} (h : rs.length = ks.length) :
    cutOuts fs N d (rs ++ rs') (ks ++ ks') = cutOuts fs N d rs ks ++ cutOuts fs N d rs' ks' :=
  zipWith_append h

theorem cutOuts_below (fs : Filesys) (N d : Nat) : ∀ {rs ks}, rs.length = ks.length →
    (∀ r ∈ rs, r.eCpos + r.eIntClusters ≤ N) → (cutOuts fs N d rs ks).map (fun o => o.1) = rs ∧
      (cutOuts fs N d rs ks).flatMap (fun o => o.2.1) = ks ∧
      (cutOuts fs N d rs ks).flatMap (fun o => o.2.2) = []
  | [], [], _, _ => ⟨rfl, rfl, rfl⟩
  | [], _ :: _, h, _ => by simp at h
  | _ :: _, [], h, _ => by simp at h
  | r :: rs, k :: ks, h, hb => by
    have hl : rs.length = ks.length := by simpa using h
    obtain ⟨h1, h2, h3⟩ := cutOuts_below fs N d hl fun r hr => hb r (mem_cons_of_mem _ hr)
    rw [cutOuts_cons, cutPair_below k (hb r (by simp))]
    exact ⟨by rw [map_cons, h1], by rw [flatMap_cons, h2]; rfl, by rw [flatMap_cons, h3]; rfl⟩

theorem cutOuts_above (fs : Filesys) (N d : Nat) : ∀ {rs ks}, rs.length = ks.length →
    (∀ r ∈ rs, N ≤ r.eCpos ∧ 0 < r.eIntClusters) →
    (cutOuts fs N d rs ks).map (fun o => o.1) = rs.map (fun _ => ExtentRec.zero) ∧
      (cutOuts fs N d rs ks).flatMap (fun o => o.2.1) = []
  | [], [], _, _ => ⟨rfl, rfl⟩
  | [], _ :: _, h, _ => by simp at h
  | _ :: _, [], h, _ => by simp at h
  | r :: rs, k :: ks, h, hb => by
    have hl : rs.length = ks.length := by simpa using h
    obtain ⟨h1, h2⟩ := cutOuts_above fs N d hl fun r hr => hb r (mem_cons_of_mem _ hr)
    have hr := hb r (by simp)
    rw [cutOuts_cons, cutPair_gone k (by omega) (.inl hr.1)]
    exact ⟨by rw [map_cons, h1, map_cons], by rw [flatMap_cons, h2]; rfl⟩

end Outs

abbrev Node.cut (fs : Filesys) (N d : Nat) (k : Node) : Cut :=
  Ocfs2Tools.cut fs N d k.eb.hList k.kids

/-- What a well-formed list asks of a record and the block it leads to. -/
abbrev KidOk (fs : Filesys) (d : Nat) (right : Bool) (r : ExtentRec) (k : Node) : Prop :=
  k.eb.hList.lCount = extentRecsPerEb fs ∧
    WfList fs d right r.eCpos (r.eCpos + r.eIntClusters) k.eb.hList k.kids

theorem cut_unchanged : ∀ {d right lo hi el ks}, WfList fs d right lo hi el ks →
    cutChanged N d el = false → cut fs N d el ks = ⟨el, ks, []⟩
  | 0, _, _, _, el, ks, h, hc => by
    have hb := cutChanged_false.mp hc
    have hmap : el.live.map (cutRec N) = el.live :=
      (map_congr_left fun r hr => cutRec_below (hb r hr)).trans (map_id _)
    have hlog : el.live.flatMap (cutFreed fs N) = [] := by
      rw [flatMap_eq_nil_iff]
      intro r hr
      have hr' : r.eCpos + r.eLeafClusters ≤ N := hb r hr
      rw [cutFreed, if_pos hr']
    rw [cut, hc, hmap, hlog, finishEl_unchanged, h.2.2.1]
  | d + 1, _, _, _, el, ks, h, hc => by
    obtain ⟨h1, h2, h3⟩ := cutOuts_below fs N d h.2.2.length_eq (cutChanged_false.mp hc)
    rw [cut_succ, hc, h1, h2, h3, finishEl_unchanged]

/-- The records of a list and the blocks below it, taken apart at the same place. -/
structure Parted (el : ExtentList) (ks : List Node) (pre rest : List ExtentRec)
    (kpre krest : List Node) : Prop where
  live : el.live = pre ++ rest
  kids : ks = kpre ++ krest
  len : pre.length = kpre.length

/-- The records of `pre` stay with their blocks, and those of `rest` are cleared. -/
structure Cleared (fs : Filesys) (N d : Nat) (el : ExtentList) (ks : List Node)
    (pre rest : List ExtentRec) (kpre krest : List Node) : Prop
    extends Parted el ks pre rest kpre krest where
  below : ∀ r ∈ pre, r.eCpos + r.eIntClusters ≤ N
  behind : ∀ r ∈ rest, N < r.eCpos + r.eIntClusters
  recs : (cutOuts fs N d el.live ks).map (fun o => o.1) = pre ++ rest.map fun _ => ExtentRec.zero
  left : (cut fs N (d + 1) el ks).kids = kpre

/-- The record `m`, which leads to `k`, is shortened. -/
structure Shortened (fs : Filesys) (N d : Nat) (el : ExtentList) (ks : List Node)
    (pre post : List ExtentRec) (kpre kpost : List Node) (m : ExtentRec) (k : Node) : Prop
    extends Parted el ks pre (m :: post) kpre (k :: kpost) where
  below : ∀ r ∈ pre, r.eCpos + r.eIntClusters ≤ N
  above : ∀ r ∈ post, N ≤ r.eCpos
  start : m.eCpos < N
  stop : N < m.eCpos + m.eIntClusters
  nonempty : (cut fs N d k.eb.hList k.kids).el.lNextFreeRec ≠ 0
  recs : (cutOuts fs N d el.live ks).map (fun o => o.1) =
    pre ++ m.setIntClusters (N - m.eCpos) :: post.map fun _ => ExtentRec.zero
  left : (cut fs N (d + 1) el ks).kids = kpre ++
    [.mk { k.eb with hList := (cut fs N d k.eb.hList k.kids).el }
      (cut fs N d k.eb.hList k.kids).kids]

/-- How the walk takes an interior list apart: the records before the new end stay with
    their blocks, those behind it are cleared, and one in between is shortened or
    cleared, depending on what is left below it. -/
inductive NodeCut (fs : Filesys) (N d : Nat) (el : ExtentList) (ks : List Node) : Prop where
  | clean {pre post : List ExtentRec} {kpre kpost : List Node}
      (c : Cleared fs N d el ks pre post kpre kpost) (above : ∀ r ∈ post, N ≤ r.eCpos)
  | gone {pre post : List ExtentRec} {kpre kpost : List Node} {m : ExtentRec} {k : Node}
      (c : Cleared fs N d el ks pre (m :: post) kpre (k :: kpost)) (above : ∀ r ∈ post, N ≤ r.eCpos)
      (empty : (cut fs N d k.eb.hList k.kids).el.lNextFreeRec = 0)
  | mid {pre post : List ExtentRec} {kpre kpost : List Node} {m : ExtentRec} {k : Node}
      (c : Shortened fs N d el ks pre post kpre kpost m k)

theorem Cleared.kids_nil {pre rest : List ExtentRec} {kpre krest : List Node}
    (c : Cleared fs N d el ks pre rest kpre krest) : pre = [] ↔
      (cut fs N (d + 1) el ks).kids = [] := by
  rw [c.left, ← length_eq_zero_iff, c.len, length_eq_zero_iff]

/-! ### What is always true of the result -/

theorem WfList.recs_ne : ∀ {d right lo hi el ks}, WfList fs d right lo hi el ks →
    treeRecs d el ks ≠ []
  | 0, _, _, _, _, _, h => by
    rw [treeRecs, h.1.nonempty_eq]
    exact h.2.1
  | d + 1, _, _, _, el, ks, h => by
    obtain ⟨_, _, js, k, -, rfl, -, -, hkid⟩ := h.edge
    rw [treeRecs, flatMap_append, flatMap_singleton]
    exact append_ne_nil_of_right_ne_nil _ hkid.recs_ne

theorem WfList.below_end (h : WfList fs d right lo hi el ks) :
    ∀ r ∈ el.live, r.eCpos + recClusters d r ≤ hi := by
  intro r hr
  cases d with
  | zero =>
    rcases live_eq_dropEmpty el.live with hd | hd
    · exact (h.1.spaced.mem_bounds r (hd ▸ hr)).2.2
    · rw [hd] at hr
      rcases mem_cons.mp hr with rfl | hr
      · exact Nat.zero_le _
      · exact (h.1.spaced.mem_bounds r hr).2.2
  | succ d => exact (h.1.tiled.spaced.mem_bounds r hr).2.2

theorem WfList.not_changed (h : WfList fs d right lo hi el ks) (hN : hi ≤ N) :
    cutChanged N d el = false :=
  cutChanged_false.mpr fun r hr => le_trans (h.below_end r hr) hN

theorem WfList.live_ne (h : WfList fs d right lo hi el ks) : el.live ≠ [] := by
  cases d with
  | zero =>
    intro h0
    exact h.2.1 (by rw [h0]; rfl)
  | succ d => exact h.1.ne

theorem cutOuts_length (fs : Filesys) (N d : Nat) (h : rs.length = ks.length) :
    ((cutOuts fs N d rs ks).map fun o => o.1).length = rs.length := by
  rw [length_map, cutOuts, length_zipWith, h, Nat.min_self]

theorem cut_shape (h : WfList fs d right lo hi el ks) :
    (cut fs N d el ks).el.lTreeDepth = d ∧ (cut fs N d el ks).el.lCount = el.lCount ∧
      (cut fs N d el ks).el.lNextFreeRec ≤ (cut fs N d el ks).el.lCount := by
  cases d with
  | zero =>
    have hlen : (el.live.map (cutRec N)).length = el.live.length := length_map ..
    exact ⟨(finishEl_lTreeDepth ..).trans h.depth, finishEl_lCount hlen h.le_count,
      finishEl_le hlen h.le_count⟩
  | succ d =>
    have hlen := cutOuts_length fs N d h.2.2.length_eq
    exact ⟨(finishEl_lTreeDepth ..).trans h.depth, finishEl_lCount hlen h.le_count,
      finishEl_le hlen h.le_count⟩

theorem recClusters_map_zero (d : Nat) (rs : List ExtentRec) :
    ∀ r ∈ rs.map fun _ => ExtentRec.zero, recClusters d r = 0 := by
  intro r hr
  obtain ⟨_, -, rfl⟩ := mem_map.mp hr
  unfold recClusters
  split <;> rfl

theorem eIntClusters_cut {m : ExtentRec} (hhi : hi ≤ uint32Max) (h1 : m.eCpos < N)
    (h2 : N < m.eCpos + m.eIntClusters) (hb : m.eCpos + m.eIntClusters ≤ hi) :
    (m.setIntClusters (N - m.eCpos)).eIntClusters = N - m.eCpos := by
  unfold uint32Max at hhi
  exact m.eIntClusters_setIntClusters (by omega)

section Interior

variable (h : WfList fs (d + 1) right lo hi el ks)

include h

theorem nodeCut : NodeCut fs N d el ks := by
  obtain ⟨pre, mid, post, hlive, hpre, hmid, hpost⟩ := h.1.tiled.spaced.cut N
  have hlen := h.2.2.length_eq
  have hpos : ∀ r ∈ el.live, 0 < r.eIntClusters := fun r hr =>
    (h.1.tiled.spaced.mem_bounds r hr).2.1
  have habove : ∀ r ∈ post, N ≤ r.eCpos ∧ 0 < r.eIntClusters := fun r hr =>
    ⟨hpost r hr, hpos r (by rw [hlive]; simp [hr])⟩
  -- the blocks fall into the same three parts as the records
  have hks : ks = ks.take pre.length ++ ks.drop pre.length := (take_append_drop _ _).symm
  have hl1 : pre.length = (ks.take pre.length).length := by
    rw [length_take, ← hlen, hlive, length_append]
    omega
  obtain ⟨hb1, hb2, -⟩ := cutOuts_below fs N d hl1 hpre
  rcases hmid with rfl | ⟨m, rfl, hm1, hm2⟩
  · have hl2 : post.length = (ks.drop pre.length).length := by
      rw [length_drop, ← hlen, hlive]
      simp
    obtain ⟨ha1, ha2⟩ := cutOuts_above fs N d hl2 habove
    rw [nil_append] at hlive
    have houts : cutOuts fs N d el.live ks = cutOuts fs N d pre (ks.take pre.length) ++
        cutOuts fs N d post (ks.drop pre.length) := by
      rw [← cutOuts_append hl1, ← hks, ← hlive]
    refine .clean ⟨⟨hlive, hks, hl1⟩, hpre, fun r hr => ?_, ?_, ?_⟩ hpost
    · have := habove r hr
      omega
    · rw [houts, map_append, hb1, ha1]
    · rw [cut_kids, houts, flatMap_append, hb2, ha2, append_nil]
  · rw [singleton_append] at hlive
    have hlt : pre.length < ks.length := by
      rw [← hlen, hlive]
      simp
    have hl2 : post.length = (ks.drop (pre.length + 1)).length := by
      rw [length_drop, ← hlen, hlive, length_append, length_cons]
      omega
    obtain ⟨ha1, ha2⟩ := cutOuts_above fs N d hl2 habove
    have hks' : ks = ks.take pre.length ++ ks[pre.length] :: ks.drop (pre.length + 1) := by
      rw [getElem_cons_drop, take_append_drop]
    generalize ks[pre.length] = k at hks'
    have houts : cutOuts fs N d el.live ks = cutOuts fs N d pre (ks.take pre.length) ++
        cutPair N (k.cut fs N d) m k ::
          cutOuts fs N d post (ks.drop (pre.length + 1)) := by
      conv_lhs => rw [hks', hlive, cutOuts_append hl1]
      rfl
    by_cases hempty : (k.cut fs N d).el.lNextFreeRec = 0
    · rw [cutPair_gone k hm2 (.inr hempty)] at houts
      refine .gone ⟨⟨hlive, hks', hl1⟩, hpre, fun r hr => ?_, ?_, ?_⟩ hpost hempty
      · rcases mem_cons.mp hr with rfl | hr
        · exact hm2
        · have := habove r hr
          omega
      · rw [houts, map_append, map_cons, hb1, ha1, map_cons]
      · rw [cut_kids, houts, flatMap_append, flatMap_cons, hb2, ha2]
        simp
    · rw [cutPair_mid k hm2 hm1 hempty] at houts
      refine .mid ⟨⟨hlive, hks', hl1⟩, hpre, hpost, hm1, hm2, hempty, ?_, ?_⟩
      · rw [houts, map_append, map_cons, hb1, ha1]
      · rw [cut_kids, houts, flatMap_append, flatMap_cons, hb2, ha2]
        simp

theorem nodeCut_cases : (∃ pre rest kpre krest, Cleared fs N d el ks pre rest kpre krest) ∨
      ∃ pre post kpre kpost m k, Shortened fs N d el ks pre post kpre kpost m k :=
  match nodeCut h with
  | .clean c _ => .inl ⟨_, _, _, _, c⟩
  | .gone c _ _ => .inl ⟨_, _, _, _, c⟩
  | .mid c => .inr ⟨_, _, _, _, _, _, c⟩

theorem WfList.pairs : List.Forall₂ (fun r k => ∃ right, KidOk fs d right r k) el.live ks :=
  EachLast.forall₂ (fun f _ _ hk => ⟨f, hk⟩) h.2.2

theorem WfList.kid {kpre kpost : List Node} {post : List ExtentRec}
    (hlive : el.live = pre ++ r :: post)
    (hks : ks = kpre ++ k :: kpost) (hlen : pre.length = kpre.length) :
    List.Forall₂ (KidOk fs d false) pre kpre ∧ KidOk fs d (right && post.isEmpty) r k := by
  have hE := h.2.2
  rw [hlive, hks, eachLast_append (by simp) hlen] at hE
  refine ⟨hE.1, ?_⟩
  have hE2 := hE.2
  cases post with
  | nil =>
    have hl := hE2.length_eq
    have hnil : kpost = [] := by simpa using hl.symm
    rw [hnil] at hE2
    simpa [EachLast] using hE2
  | cons r' post =>
    rw [eachLast_cons (by simp)] at hE2
    simpa using hE2.1

theorem WfList.kept_pos {rest : List ExtentRec}
    (hlive : el.live = pre ++ rest) : ∀ r ∈ pre, recClusters (d + 1) r ≠ 0 := by
  intro r hr
  have := (h.1.tiled.spaced.mem_bounds r (by rw [hlive]; exact mem_append_left _ hr)).2.1
  rw [recClusters_succ]
  omega

theorem WfList.kept_short {m : ExtentRec} {post : List ExtentRec} (hhi : hi ≤ uint32Max)
    (hlive : el.live = pre ++ m :: post) (h1 : m.eCpos < N) (h2 : N < m.eCpos + m.eIntClusters) :
    ∀ r ∈ pre ++ [m.setIntClusters (N - m.eCpos)], recClusters (d + 1) r ≠ 0 := by
  have hm := (h.1.tiled.spaced.mem_bounds m (by rw [hlive]; simp)).2.2
  refine forall_mem_append.mpr ⟨h.kept_pos hlive, forall_mem_singleton.mpr ?_⟩
  rw [recClusters_succ, eIntClusters_cut hhi h1 h2 hm]
  omega

theorem cut_gone (h0 : (cut fs N (d + 1) el ks).kids = []) :
    (cut fs N (d + 1) el ks).el.lNextFreeRec = 0 := by
  rcases nodeCut_cases (N := N) h with ⟨pre, rest, kpre, krest, c⟩ | ⟨_, _, _, _, _, _, c⟩
  · have hlive := c.live
    have hrecs := c.recs
    rw [c.kids_nil.mpr h0] at hlive hrecs
    obtain ⟨r, rest', rfl⟩ := exists_cons_of_ne_nil (hlive ▸ h.1.ne)
    have hc : cutChanged N (d + 1) el = true :=
      cutChanged_true.mpr ⟨r, by rw [hlive]; simp, c.behind r (by simp)⟩
    rw [cut_succ, hrecs, hc]
    exact finishEl_first rfl
  · rw [c.left] at h0
    simp at h0

end Interior

theorem cut_emptied (h : WfList fs d right lo hi el ks) (hhi : hi ≤ uint32Max)
    (h0 : (cut fs N d el ks).el.lNextFreeRec = 0) : (cut fs N d el ks).kids = [] := by
  cases d with
  | zero => rfl
  | succ d =>
    have hlen := cutOuts_length fs N d h.2.2.length_eq
    rw [cut_succ] at h0
    rcases nodeCut_cases h with ⟨pre, rest, kpre, krest, c⟩ | ⟨_, _, _, _, _, _, c⟩
    · rw [c.recs] at h0 hlen
      refine c.kids_nil.mp ?_
      by_contra hne
      exact finishEl_pos (h.kept_pos c.live) (recClusters_map_zero _ _) hlen h.le_count hne h0
    · rw [c.recs, append_cons] at h0 hlen
      exact absurd h0 (finishEl_pos (h.kept_short hhi c.live c.start c.stop)
        (recClusters_map_zero _ _) hlen h.le_count (by simp))

theorem cut_empty : ∀ {d right lo hi el ks}, WfList fs d right lo hi el ks →
    (∀ r ∈ treeRecs d el ks, N ≤ r.eCpos) → (cut fs N d el ks).el.lNextFreeRec = 0
  | 0, right, lo, hi, el, ks, h, hall => by
    rw [treeRecs, h.1.nonempty_eq] at hall
    obtain ⟨x, xs, hx⟩ := exists_cons_of_ne_nil h.2.1
    have hxpos := (h.1.spaced.mem_bounds x (by rw [hx]; simp)).2.1
    have hxN := hall x (by rw [hx]; simp)
    have hxlive : x ∈ el.live := by
      rcases live_eq_dropEmpty el.live with hd | hd <;> rw [hd, hx] <;> simp
    have hc : cutChanged N 0 el = true :=
      cutChanged_true.mpr ⟨x, hxlive, by rw [recClusters_zero]; omega⟩
    obtain ⟨z, zs, hlive, hz⟩ : ∃ z zs, el.live = z :: zs ∧ (cutRec N z).eLeafClusters = 0 := by
      rcases live_eq_dropEmpty el.live with hd | hd
      · exact ⟨x, xs, by rw [hd, hx], by rw [cutRec_above hxN hxpos]; rfl⟩
      · refine ⟨_, _, hd, ?_⟩
        rfl
    show (finishEl 0 (cutChanged N 0 el) el (el.live.map (cutRec N))).lNextFreeRec = 0
    rw [hc, hlive]
    exact finishEl_first hz
  | d + 1, right, lo, hi, el, ks, h, hall => by
    rcases nodeCut_cases h with ⟨pre, rest, kpre, krest, c⟩ | ⟨_, _, _, _, _, _, c⟩
    · refine cut_gone h (c.kids_nil.mp ?_)
      by_contra hne
      -- a block all of whose records end before the new end has one that starts before it
      obtain ⟨r, pre', rfl⟩ := exists_cons_of_ne_nil hne
      have hb := c.below r (by simp)
      obtain ⟨k, hk, _, -, hw⟩ := forall₂_mem_left h.pairs r (by rw [c.live]; simp)
      obtain ⟨x, xs, hx⟩ := exists_cons_of_ne_nil hw.recs_ne
      have h1 := hw.recs_spaced.mem_bounds x (by rw [hx]; simp)
      have h2 := hall x (mem_flatMap.mpr ⟨k, hk, by rw [hx]; simp⟩)
      omega
    · obtain ⟨-, -, hk⟩ := h.kid c.live c.kids c.len
      refine absurd (cut_empty hk fun r hr => hall r ?_) c.nonempty
      rw [treeRecs, c.kids, flatMap_append]
      exact mem_append_right _ (mem_append_left _ hr)

theorem kid_gone (hk : KidOk fs d right r k) (hr : r.eCpos + r.eIntClusters ≤ uint32Max)
    (h : N ≤ r.eCpos ∨ (k.cut fs N d).el.lNextFreeRec = 0) : (k.cut fs N d).kids = [] := by
  refine cut_emptied hk.2 hr (h.elim (fun h => cut_empty hk.2 fun x hx => ?_) id)
  exact le_trans h (hk.2.recs_spaced.mem_bounds x hx).1

/-! ### What is given back -/

def clusterLog (fs : Filesys) (log : List Release) : List Nat :=
  log.flatMap fun
    | .extentBlock _ => []
    | .clusters start len => List.range' (start / fs.bpc) len
    | .refcount cpos len => List.range' cpos len

def blockLog (log : List Release) : List Nat :=
  log.filterMap fun
    | .extentBlock blkno => some blkno
    | _ => none

/-- The clusters of the device that hold the file from cluster `N` on, as far as `r` maps them. -/
def clustersFrom (fs : Filesys) (N : Nat) (r : ExtentRec) : List Nat :=
  List.range' (r.eBlkno / fs.bpc + (N - r.eCpos)) (r.eLeafClusters - (N - r.eCpos))

theorem clusterLog_append (a b : List Release) :
    clusterLog fs (a ++ b) = clusterLog fs a ++ clusterLog fs b := flatMap_append

theorem blockLog_append (a b : List Release) : blockLog (a ++ b) = blockLog a ++ blockLog b :=
  filterMap_append

theorem clusterLog_releaseOf {start len : Nat} (hb : start / fs.bpc ≤ uint32Max) :
    clusterLog fs [releaseOf fs r start len] = List.range' (start / fs.bpc) len := by
  unfold releaseOf
  split
  · exact flatMap_singleton ..
  · rw [clusterLog, flatMap_singleton, blocksToClusters, if_neg (by omega)]

theorem blockLog_releaseOf (r : ExtentRec) (start len : Nat) :
    blockLog [releaseOf fs r start len] = [] := by
  unfold releaseOf
  split <;> rfl

theorem clusterLog_cutFreed (h : RecOk fs r) :
    clusterLog fs (cutFreed fs N r) = clustersFrom fs N r := by
  have hb := h.bound
  unfold cutFreed clustersFrom
  by_cases h1 : r.eCpos + r.eLeafClusters ≤ N
  · have hz : r.eLeafClusters - (N - r.eCpos) = 0 := by omega
    rw [if_pos h1, hz]
    rfl
  · rw [if_neg h1]
    by_cases h2 : N ≤ r.eCpos
    · have hz : N - r.eCpos = 0 := by omega
      rw [if_pos h2, clusterLog_releaseOf (by omega), hz]
      rfl
    · have hdiv : (r.eBlkno + clustersToBlocks fs (N - r.eCpos)) / fs.bpc =
          r.eBlkno / fs.bpc + (N - r.eCpos) := Nat.add_mul_div_right _ _ fs.bpc_pos
      have hlen : r.eCpos + r.eLeafClusters - N = r.eLeafClusters - (N - r.eCpos) := by omega
      rw [if_neg h2, clusterLog_releaseOf (by omega), hdiv, hlen]

theorem blockLog_cutFreed (r : ExtentRec) : blockLog (cutFreed fs N r) = [] := by
  unfold cutFreed
  split
  · rfl
  · split
    · exact blockLog_releaseOf ..
    · exact blockLog_releaseOf ..

theorem clustersFrom_below (h : r.eCpos + r.eLeafClusters ≤ N) : clustersFrom fs N r = [] := by
  have hz : r.eLeafClusters - (N - r.eCpos) = 0 := by omega
  rw [clustersFrom, hz]
  rfl

theorem leaf_clusters (h : LeafOk fs lo hi el) : clusterLog fs (el.live.flatMap (cutFreed fs N)) =
    el.nonempty.flatMap (clustersFrom fs N) := by
  have hreal : ∀ {rs : List ExtentRec}, (∀ r ∈ rs, RecOk fs r) →
      clusterLog fs (rs.flatMap (cutFreed fs N)) = rs.flatMap (clustersFrom fs N) := by
    intro rs hrs
    induction rs with
    | nil => rfl
    | cons r rs ih =>
      rw [flatMap_cons, clusterLog_append, clusterLog_cutFreed (hrs r (by simp)),
        ih fun r hr => hrs r (mem_cons_of_mem _ hr), flatMap_cons]
  rw [h.nonempty_eq, ← hreal h.recs]
  rcases live_eq_dropEmpty el.live with hd | hd
  · rw [← hd]
  · -- nothing is given back for the empty record
    have hz : cutFreed fs N ExtentRec.zero = [] := by simp [cutFreed, ExtentRec.zero]
    conv_lhs => rw [hd, flatMap_cons, hz, nil_append]

theorem cut_clusters : ∀ {d right lo hi el ks}, WfList fs d right lo hi el ks →
    clusterLog fs (cut fs N d el ks).log = (treeRecs d el ks).flatMap (clustersFrom fs N)
  | 0, _, _, _, _, _, h => leaf_clusters h.1
  | d + 1, right, lo, hi, el, ks, h => by
    have hpair : ∀ r k, (∃ right, KidOk fs d right r k) →
        clusterLog fs (cutPair N (k.cut fs N d) r k).2.2 =
          (treeRecs d k.eb.hList k.kids).flatMap (clustersFrom fs N) := by
      rintro r k ⟨_, -, hk⟩
      have ih := cut_clusters hk
      unfold cutPair
      split
      · symm
        rw [show clusterLog fs [] = [] from rfl, flatMap_eq_nil_iff]
        intro x hx
        have := (hk.recs_spaced.mem_bounds x hx).2.2
        exact clustersFrom_below (by omega)
      · split
        · rw [clusterLog_append, ih]
          exact append_nil _
        · exact ih
    have hp := h.pairs
    rw [cut_log, treeRecs]
    clear h
    generalize el.live = rs at hp
    induction hp with
    | nil => rfl
    | cons hk hks ih =>
      rw [cutOuts_cons, flatMap_cons, clusterLog_append, hpair _ _ hk, ih,
        flatMap_cons, flatMap_append]

/-- The blocks at and below a record are those that are left and those that are given
    back, if that holds below it. -/
theorem cutPair_blocks (hk : KidOk fs d right r k) (hr : r.eCpos + r.eIntClusters ≤ uint32Max)
    (ih : (treeBlocks d k.kids).Perm (treeBlocks d (k.cut fs N d).kids ++
      blockLog (k.cut fs N d).log)) :
    (nodeBlocks d k).Perm (treeBlocks (d + 1) (cutPair N (k.cut fs N d) r k).2.1 ++
        blockLog (cutPair N (k.cut fs N d) r k).2.2) := by
  unfold cutPair
  split
  · rw [treeBlocks_succ, flatMap_singleton]
    exact List.Perm.of_eq (append_nil _).symm
  · split
    · -- a block is only given back when nothing is left below it
      rename_i hgone
      rw [kid_gone hk hr hgone] at ih
      have ih' : (treeBlocks d k.kids).Perm (blockLog (k.cut fs N d).log) := by
        cases d <;> exact ih
      rw [blockLog_append]
      exact (List.Perm.cons _ ih').trans (perm_append_singleton ..).symm
    · rw [treeBlocks_succ, flatMap_singleton]
      exact List.Perm.cons _ ih

theorem leaf_blocks (rs : List ExtentRec) : blockLog (rs.flatMap (cutFreed fs N)) = [] := by
  induction rs with
  | nil => rfl
  | cons r rs ih =>
    rw [flatMap_cons, blockLog_append, blockLog_cutFreed, ih]
    rfl

theorem cut_blocks : ∀ {d right lo hi el ks}, WfList fs d right lo hi el ks → hi ≤ uint32Max →
    (treeBlocks d ks).Perm (treeBlocks d (cut fs N d el ks).kids ++ blockLog (cut fs N d el ks).log)
  | 0, right, lo, hi, el, ks, h, _ => by
    show List.Perm [] ([] ++ blockLog (el.live.flatMap (cutFreed fs N)))
    rw [leaf_blocks]
    rfl
  | d + 1, right, lo, hi, el, ks, h, hhi => by
    have hr : ∀ r ∈ el.live, r.eCpos + r.eIntClusters ≤ uint32Max := fun r hr =>
      le_trans (h.1.tiled.spaced.mem_bounds r hr).2.2 hhi
    have hp := h.pairs
    rw [cut_log, cut_kids, treeBlocks_succ]
    clear h
    generalize el.live = rs at hp hr
    induction hp with
    | nil => exact List.Perm.refl _
    | @cons r k rs ks hk hks ih =>
      obtain ⟨_, hw⟩ := hk
      have h1 := cutPair_blocks hw (hr r (by simp)) (cut_blocks hw.2 (hr r (by simp)))
      have h2 := ih fun x hx => hr x (mem_cons_of_mem _ hx)
      rw [treeBlocks_succ] at h1 h2 ⊢
      rw [cutOuts_cons, flatMap_cons, flatMap_cons, flatMap_cons, blockLog_append, flatMap_append]
      refine (h1.append h2).trans ?_
      rw [append_assoc, append_assoc]
      refine List.Perm.append_left _ ?_
      rw [← append_assoc, ← append_assoc]
      exact List.Perm.append_right _ perm_append_comm

/-! ### The leaves that are left -/

/-- What the leaf chain depends on. -/
def leafKey (eb : ExtentBlock) : Nat × Nat := (eb.hBlkno, eb.hNextLeafBlk)

theorem cut_leaves : ∀ {d right lo hi el ks}, WfList fs (d + 1) right lo hi el ks →
    (treeLeaves (d + 1) (cut fs N (d + 1) el ks).kids).map leafKey <+:
      (treeLeaves (d + 1) ks).map leafKey
  | d, right, lo, hi, el, ks, h => by
    rw [treeLeaves_succ, treeLeaves_succ]
    rcases nodeCut_cases h with ⟨pre, rest, kpre, krest, c⟩ | ⟨_, _, _, _, _, _, c⟩
    · rw [c.left, c.kids, flatMap_append, map_append]
      exact prefix_append ..
    · rw [c.left, c.kids, flatMap_append, map_append, flatMap_append, map_append,
        prefix_append_right_inj, flatMap_singleton, flatMap_cons, map_append]
      refine List.IsPrefix.trans ?_ (prefix_append ..)
      cases d with
      | zero => exact prefix_rfl
      | succ d => exact cut_leaves (h.kid c.live c.kids c.len).2.2

theorem nodeLeaves_ne (h : WfList fs d right lo hi k.eb.hList k.kids) : nodeLeaves d k ≠ [] := by
  cases d with
  | zero => simp [nodeLeaves]
  | succ d => exact h.leaves_ne

theorem cut_leaves_ne : ∀ {d right lo hi el ks}, WfList fs (d + 1) right lo hi el ks →
    (cut fs N (d + 1) el ks).kids ≠ [] → treeLeaves (d + 1) (cut fs N (d + 1) el ks).kids ≠ []
  | d, right, lo, hi, el, ks, h, hne => by
    rcases nodeCut_cases h with ⟨pre, rest, kpre, krest, c⟩ | ⟨_, _, _, _, _, _, c⟩
    · rw [c.left] at hne ⊢
      intro hnil
      obtain ⟨k, kpre', rfl⟩ := exists_cons_of_ne_nil hne
      obtain ⟨r, -, _, -, hk⟩ := forall₂_mem_right h.pairs k (by rw [c.kids]; simp)
      rw [treeLeaves_succ, flatMap_cons, append_eq_nil_iff] at hnil
      exact nodeLeaves_ne hk hnil.1
    · rw [c.left, treeLeaves_succ, flatMap_append, flatMap_singleton]
      apply append_ne_nil_of_right_ne_nil
      cases d with
      | zero => simp [nodeLeaves]
      | succ d =>
        have hk := (h.kid c.live c.kids c.len).2.2
        exact cut_leaves_ne hk fun h0 => c.nonempty (cut_gone hk h0)

end Ocfs2Tools
