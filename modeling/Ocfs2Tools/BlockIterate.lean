import Ocfs2Tools.ExtentTree.Visit

/-!
# The block iterator: `ocfs2_block_iterate_inode`

`block_iterate_func` is a callback for the extent iterator that hands on every block of a
record, up to the size of the file. Only mapped blocks are handed on; the callback learns
from `bcount` which block of the file it has.
-/

namespace Ocfs2Tools

open List ExtentRec

variable {κ : Type} (fs : Filesys) {s t : St} {ks : List Node} {iSize : Nat}

/-! ### The functions of `extents.c` -/

/-- What a block callback gets: the block, its number in the file, the flags of its extent. -/
structure BlockCall where
  blkno : Nat
  bcount : Nat
  extFlags : Nat
deriving DecidableEq, Repr

abbrev BlockFunc (κ : Type) : Type := BlockCall → κ → M (IterFlags × κ)

variable (append : Bool)

/-- The block is behind the end of the file, and `OCFS2_BLOCK_FLAG_APPEND` is not given. -/
def pastEnd (iSize bcount : Nat) : Bool :=
  decide (iSize ≤ bcount * fs.fsBlocksize) && !append

/-- The loop of `block_iterate_func` over `n` blocks. -/
def blockLoop (iSize : Nat) (func : BlockFunc κ) (extFlags : Nat) :
    Nat → Nat → Nat → IterFlags → κ → M (IterFlags × κ)
  | 0, _, _, iret, p => pure (iret, p)
  | n + 1, blkno, bcount, iret, p =>
    if pastEnd fs append iSize bcount then pure (iret, p)
    else do
      let (iret, p) ← func ⟨blkno, bcount, extFlags⟩ p
      if iret.abort then pure (iret, p)
      else blockLoop iSize func extFlags n (blkno + 1) (bcount + 1) iret p

/-- `block_iterate_func`. -/
def blockIterateFunc (iSize : Nat) (func : BlockFunc κ) :
    ExtentFunc κ := fun r treeDepth p => do
  let (iret, p) ← blockLoop fs append iSize func r.eFlags
    (clustersToBlocks fs (recClusters treeDepth r)) r.eBlkno (clustersToBlocks fs r.eCpos)
    IterFlags.nothing p
  pure (iret, r, p)

/-- `ocfs2_block_iterate_inode`. -/
def blockIterateInode (func : BlockFunc κ) (di : Dinode) (p : κ) :
    M (Dinode × κ) :=
  extentIterateInode fs ⟨false, true⟩ (blockIterateFunc fs append di.iSize func) di p

/-! ### The calls -/

/-- What a block callback that only looks makes of the caller's data, and whether it returns
    `OCFS2_BLOCK_ABORT`. -/
abbrev BlockLook (κ : Type) : Type := BlockCall → κ → Bool × κ

def BlockLooks (func : BlockFunc κ) (look : BlockLook κ) (s : St) : Prop :=
  ∀ c p, func c p s = some (.ok (stopFlags (look c p).1, (look c p).2), s)

def callsFrom (iSize extFlags : Nat) :
    Nat → Nat → Nat → List BlockCall
  | 0, _, _ => []
  | n + 1, blkno, bcount =>
    if pastEnd fs append iSize bcount then []
    else ⟨blkno, bcount, extFlags⟩ :: callsFrom iSize extFlags n (blkno + 1) (bcount + 1)

def recCalls (iSize treeDepth : Nat) (r : ExtentRec) :
    List BlockCall :=
  callsFrom fs append iSize r.eFlags (clustersToBlocks fs (recClusters treeDepth r)) r.eBlkno
    (clustersToBlocks fs r.eCpos)

def fileCalls (iSize : Nat) (recs : List ExtentRec) :
    List BlockCall :=
  recs.flatMap (recCalls fs append iSize 0)

variable {fs append}

theorem blockLoop_looks {func : BlockFunc κ} {look : BlockLook κ} (h : BlockLooks func look s)
    {append : Bool} {iSize extFlags : Nat} : ∀ n blkno bcount p,
    blockLoop fs append iSize func extFlags n blkno bcount IterFlags.nothing p s =
      some (.ok (stopFlags (foldStop (fun p c => look c p) p
          (callsFrom fs append iSize extFlags n blkno bcount)).1, (foldStop (fun p c => look c p) p
          (callsFrom fs append iSize extFlags n blkno bcount)).2), s)
  | 0, _, _, _ => rfl
  | n + 1, blkno, bcount, p => by
    rw [blockLoop, callsFrom]
    split
    · rfl
    · rw [Prog.bind_ok (h _ p)]
      match hl : look ⟨blkno, bcount, extFlags⟩ p with
      | (true, p') =>
        rw [foldStop_cons_stop hl]
        rfl
      | (false, p') =>
        rw [foldStop_cons_go hl]
        exact blockLoop_looks h n (blkno + 1) (bcount + 1) p'

/-- The look of `block_iterate_func`. -/
def recLook (fs : Filesys) (append : Bool) (iSize : Nat) (look : BlockLook κ) : Look κ :=
  fun r treeDepth p => foldStop (fun p c => look c p) p (recCalls fs append iSize treeDepth r)

variable {func : BlockFunc κ} {look : BlockLook κ}

theorem blockIterateFunc_looks (h : BlockLooks func look s) (append : Bool) (iSize : Nat) :
    Looks (blockIterateFunc fs append iSize func) (recLook fs append iSize look) s := by
  intro r d p
  rw [blockIterateFunc, Prog.bind_ok (blockLoop_looks h _ _ _ p)]
  rfl

theorem visits_dataOnly {ebs : Nat → Option ExtentBlock} {b : Bool} : ∀ {d el ks},
    readKids ebs d el = some ks → visits ⟨b, true⟩ d el ks = (treeRecs d el ks).map fun r => (r, 0)
  | 0, _, _, _ => rfl
  | d + 1, el, ks, h => by
    have hf := readKids_succ.mp h
    rw [visits, treeRecs]
    generalize el.live = rs at hf
    clear h
    induction hf with
    | nil => rfl
    | @cons r k rs ks hl _ ih =>
      rw [zip_cons_cons, flatMap_cons, ih, visits_dataOnly hl.kids]
      simp [callAt]

theorem lookAll_recLook {ebs : Nat → Option ExtentBlock} {d : Nat} {el : ExtentList}
    (hread : readKids ebs d el = some ks) {b append : Bool} (look : BlockLook κ) (p : κ) :
    lookAll (recLook fs append iSize look) p (visits ⟨b, true⟩ d el ks) =
      foldStop (fun p c => look c p) p (fileCalls fs append iSize (treeRecs d el ks)) := by
  rw [visits_dataOnly hread, fileCalls, ← foldStop_flatMap, lookAll, foldStop_map]
  rfl

theorem blockIterateInode_looks (append : Bool) {di : Dinode} (hlook : BlockLooks func look s)
    (hwalk : Walkable di) (h : Iterable fs s.dev.ebs di ks) (p : κ) :
    ∃ stop p', foldStop (fun p c => look c p) p (fileCalls fs append di.iSize
        (treeRecs di.iList.lTreeDepth di.iList ks)) = (stop, p') ∧
      (stop = true ∨ LastLeafMapped di.iList.lTreeDepth di.iList ks →
        blockIterateInode fs append func di p s = some (.ok (di, p'), s)) ∧
      ∀ di' q t, blockIterateInode fs append func di p s = some (.ok (di', q), t) → q = p' := by
  obtain ⟨stop, p', hi⟩ := h.iterates ⟨false, true⟩
    (blockIterateFunc_looks hlook append di.iSize) hwalk p
  refine ⟨stop, p', ?_, hi.quiet, fun di' q t => hi.priv⟩
  rw [← lookAll_recLook h.read]
  exact hi.calls

/-! ### Which blocks are called on -/

theorem mem_callsFrom {iSize extFlags : Nat} {c : BlockCall} : ∀ {n blkno bcount},
    c ∈ callsFrom fs false iSize extFlags n blkno bcount ↔
      ∃ i < n, c = ⟨blkno + i, bcount + i, extFlags⟩ ∧ (bcount + i) * fs.fsBlocksize < iSize
  | 0, _, _ => by simp [callsFrom]
  | n + 1, blkno, bcount => by
    rw [callsFrom]
    split
    · next hp =>
      simp only [pastEnd, Bool.not_false, Bool.and_true, decide_eq_true_eq] at hp
      simp only [not_mem_nil, false_iff]
      rintro ⟨i, -, -, hlt⟩
      have := Nat.mul_le_mul_right fs.fsBlocksize (Nat.le_add_right bcount i)
      omega
    · next hp =>
      rw [mem_cons, mem_callsFrom]
      simp only [pastEnd, Bool.not_false, Bool.and_true, decide_eq_true_eq, not_le] at hp
      constructor
      · rintro (rfl | ⟨i, hi, rfl, hlt⟩)
        · exact ⟨0, Nat.succ_pos n, rfl, hp⟩
        · refine ⟨i + 1, Nat.succ_lt_succ hi, ?_, ?_⟩
          · simp only [Nat.add_assoc, Nat.add_comm 1 i]
          · rwa [← Nat.add_assoc, Nat.add_right_comm]
      · rintro ⟨i, hi, rfl, hlt⟩
        cases i with
        | zero => exact .inl rfl
        | succ i =>
          refine .inr ⟨i, Nat.lt_of_succ_lt_succ hi, ?_, ?_⟩
          · simp only [Nat.add_assoc, Nat.add_comm 1 i]
          · rwa [← Nat.add_assoc, Nat.add_right_comm] at hlt

theorem callsFrom_sorted {append : Bool} {iSize extFlags : Nat} : ∀ {n blkno bcount},
    (callsFrom fs append iSize extFlags n blkno bcount).Pairwise (·.bcount < ·.bcount) ∧
      ∀ c ∈ callsFrom fs append iSize extFlags n blkno bcount,
        bcount ≤ c.bcount ∧ c.bcount < bcount + n
  | 0, _, _ => by simp [callsFrom]
  | n + 1, blkno, bcount => by
    obtain ⟨h1, h2⟩ := @callsFrom_sorted append iSize extFlags n (blkno + 1) (bcount + 1)
    rw [callsFrom]
    split
    · simp
    · refine ⟨pairwise_cons.mpr ⟨fun c hc => (h2 c hc).1, h1⟩, ?_⟩
      intro c hc
      rcases mem_cons.mp hc with rfl | hc
      · exact ⟨le_refl _, Nat.lt_add_of_pos_right (Nat.succ_pos n)⟩
      · have := h2 c hc
        omega

theorem fileCalls_sorted {append : Bool} {iSize : Nat} : ∀ {recs lo hi},
    Spaced eCpos eLeafClusters lo recs hi →
    (fileCalls fs append iSize recs).Pairwise (·.bcount < ·.bcount) ∧
      ∀ c ∈ fileCalls fs append iSize recs, lo * fs.bpc ≤ c.bcount
  | [], _, _, _ => by simp [fileCalls]
  | r :: recs, lo, hi, h => by
    obtain ⟨h1, h2⟩ := @fileCalls_sorted append iSize _ _ _ h.2.2
    obtain ⟨h3, h4⟩ := @callsFrom_sorted fs append iSize r.eFlags
      (clustersToBlocks fs (recClusters 0 r)) r.eBlkno (clustersToBlocks fs r.eCpos)
    have hlo : lo * fs.bpc ≤ clustersToBlocks fs r.eCpos := Nat.mul_le_mul_right _ h.1
    have hend : clustersToBlocks fs r.eCpos + clustersToBlocks fs (recClusters 0 r) =
        (r.eCpos + r.eLeafClusters) * fs.bpc := by
      rw [clustersToBlocks, clustersToBlocks, ← Nat.add_mul]
      rfl
    refine ⟨pairwise_append.mpr ⟨h3, h1, fun a ha b hb => ?_⟩, fun c hc => ?_⟩
    · have ha' := (h4 a ha).2
      have hb' := h2 b hb
      omega
    · rcases mem_append.mp hc with hc | hc
      · exact le_trans hlo (h4 c hc).1
      · have := h2 c hc
        omega

theorem mem_fileCalls {recs : List ExtentRec} {lo hi : Nat} {c : BlockCall}
    (hs : Spaced eCpos eLeafClusters lo recs hi) :
    c ∈ fileCalls fs false iSize recs ↔ c.bcount * fs.fsBlocksize < iSize ∧
      ∃ blkno, recsMap fs recs (c.bcount / fs.bpc) = some (blkno, c.extFlags) ∧
        c.blkno = blkno + c.bcount % fs.bpc := by
  have hpos := fs.bpc_pos
  constructor
  · intro hc
    obtain ⟨r, hr, hc⟩ := mem_flatMap.mp hc
    obtain ⟨i, hi', rfl, hlt⟩ := mem_callsFrom.mp hc
    have hdiv : (clustersToBlocks fs r.eCpos + i) / fs.bpc = r.eCpos + i / fs.bpc := by
      rw [clustersToBlocks, Nat.mul_comm, Nat.mul_add_div hpos]
    have hmod : (clustersToBlocks fs r.eCpos + i) % fs.bpc = i % fs.bpc := by
      rw [clustersToBlocks, Nat.mul_comm, Nat.mul_add_mod]
    have hcov : Covers eCpos eLeafClusters r (r.eCpos + i / fs.bpc) :=
      ⟨Nat.le_add_right _ _, Nat.add_lt_add_left (Nat.div_lt_of_lt_mul (by
        rw [Nat.mul_comm]; exact hi')) _⟩
    refine ⟨hlt, r.eBlkno + clustersToBlocks fs (i / fs.bpc), ?_, ?_⟩
    · rw [hdiv, recsMap_of_mem hs hr hcov, Nat.add_sub_cancel_left]
    · show r.eBlkno + i = _ + (clustersToBlocks fs r.eCpos + i) % fs.bpc
      rw [hmod, clustersToBlocks, Nat.add_assoc, Nat.mul_comm, Nat.div_add_mod]
  · rintro ⟨hlt, blkno, hmap, hblk⟩
    have hex : ∃ r ∈ recs, Covers eCpos eLeafClusters r (c.bcount / fs.bpc) := by
      by_contra hno
      push Not at hno
      rw [recsMap_eq_none.mpr hno] at hmap
      cases hmap
    obtain ⟨r, hr, hcov⟩ := hex
    rw [recsMap_of_mem hs hr hcov, Option.some.injEq, Prod.mk.injEq] at hmap
    obtain ⟨rfl, hf⟩ := hmap
    have hv := Nat.div_add_mod c.bcount fs.bpc
    have hlow : r.eCpos * fs.bpc ≤ c.bcount / fs.bpc * fs.bpc := Nat.mul_le_mul_right _ hcov.1
    have hhigh : (c.bcount / fs.bpc + 1) * fs.bpc ≤ (r.eCpos + r.eLeafClusters) * fs.bpc :=
      Nat.mul_le_mul_right _ hcov.2
    have hm := Nat.mod_lt c.bcount hpos
    rw [Nat.mul_comm] at hv
    rw [Nat.add_mul, Nat.add_mul] at hhigh
    refine mem_flatMap.mpr ⟨r, hr, mem_callsFrom.mpr
      ⟨c.bcount - clustersToBlocks fs r.eCpos, ?_, ?_, ?_⟩⟩
    · show _ < r.eLeafClusters * fs.bpc
      rw [clustersToBlocks]
      omega
    · have h1 : clustersToBlocks fs r.eCpos + (c.bcount - clustersToBlocks fs r.eCpos) =
        c.bcount := by
        rw [clustersToBlocks]
        omega
      have h2 : c.blkno = r.eBlkno + (c.bcount - clustersToBlocks fs r.eCpos) := by
        rw [hblk, clustersToBlocks, clustersToBlocks, Nat.sub_mul]
        omega
      rw [h1, ← h2, hf]
    · have h1 : clustersToBlocks fs r.eCpos + (c.bcount - clustersToBlocks fs r.eCpos) =
        c.bcount := by
        rw [clustersToBlocks]
        omega
      rw [h1]
      exact hlt

end Ocfs2Tools
