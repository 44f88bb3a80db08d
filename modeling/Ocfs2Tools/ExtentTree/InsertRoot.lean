import Ocfs2Tools.ExtentTree.Insert

/-!
# Inserting into a root list

What `ocfs2_tree_insert_extent` does to a tree without extent blocks whose list has a free
record. The new record is merged with a neighbour or stored between two records. `LeafInsert`
says so for any list. On an ordered list with a hole for the record the outcome is `Inserted`:
the list maps what it mapped and the new clusters. That needs the merged length to fit 16 bits,
which nothing in the code looks at.
-/

namespace Ocfs2Tools

open List Prog ExtentRec

variable {fs : Filesys} {r x : ExtentRec} {el el' : ExtentList} {s : St} {lo hi v : Nat}

/-! ### Lists of records in memory -/

theorem ExtentList.live_setRec (el : ExtentList) (i : Nat) (r : ExtentRec) :
    (el.setRec i r).live = el.live.set i r := take_set ..

theorem ExtentList.live_insertSorted (el : ExtentList) (hle : el.lNextFreeRec ≤ el.lCount)
    (r : ExtentRec) : (insertSorted el r).live =
      el.live.take (el.live.findIdx fun x => decide (r.eCpos < x.eCpos)) ++
        r :: el.live.drop (el.live.findIdx fun x => decide (r.eCpos < x.eCpos)) := by
  have hi : el.live.findIdx (fun x => decide (r.eCpos < x.eCpos)) ≤ el.live.length :=
    findIdx_le_length
  have hlen := ExtentList.live_length hle
  simp only [insertSorted]
  rw [ExtentList.live, take_append_of_le_length]
  · refine take_of_length_le ?_
    simp only [length_append, length_take, length_cons, length_drop]
    omega
  · simp only [length_append, length_take, length_cons, length_drop]
    omega

theorem ExtentList.lCount_insertSorted (h : el.lNextFreeRec < el.lCount) (r : ExtentRec) :
    (insertSorted el r).lCount = el.lCount := by
  have hi : el.live.findIdx (fun x => decide (r.eCpos < x.eCpos)) ≤ el.live.length :=
    findIdx_le_length
  have hlen := ExtentList.live_length h.le
  simp only [insertSorted, ExtentList.lCount, length_append, length_take, length_cons,
    length_drop] at h ⊢
  omega

theorem ExtentList.live_dropFirst (hle : el.lNextFreeRec ≤ el.lCount) :
    (dropFirst el).live = el.live.drop 1 := by
  have hlen := ExtentList.live_length hle
  rw [ExtentList.live, dropFirst, take_append_of_le_length (by rw [length_drop, hlen]),
    take_of_length_le (by rw [length_drop, hlen])]

theorem ExtentList.lCount_dropFirst (hle : el.lNextFreeRec ≤ el.lCount) :
    (dropFirst el).lCount = el.lCount := by
  have hlen := ExtentList.live_length hle
  simp only [dropFirst, ExtentList.lCount, length_append, length_drop, hlen] at hle ⊢
  omega

/-! ### What becomes of the list -/

/-- Where a record is stored between others: behind all of them, or in front of the first one
    that starts behind it. -/
def Place (pre : List ExtentRec) (r : ExtentRec) (post : List ExtentRec) : Prop :=
  post = [] ∧ (∀ x, pre.getLast? = some x → addW 32 x.eCpos x.eLeafClusters ≤ r.eCpos) ∨
    (∀ x ∈ pre, x.eCpos ≤ r.eCpos) ∧ ∀ x, post.head? = some x → r.eCpos < x.eCpos

/-- The list after the insertion: a record is merged with the new one, or the new one is stored
    and an empty record in front goes away. -/
inductive LeafInsert (fs : Filesys) (r : ExtentRec) (el : ExtentList) : ExtentList → Prop
  | merged (i : Nat) (x : ExtentRec) (found : el.live[i]? = some x)
      (contig : extentRecContig fs x r ≠ .none) :
      LeafInsert fs r el (el.setRec i (mergeRec (extentRecContig fs x r) x r))
  | stored (el' : ExtentList) (z pre post : List ExtentRec)
      (empty : z = [] ∨ ∃ e, z = [e] ∧ isEmptyExtent e = true) (old : el.live = z ++ (pre ++ post))
      (new : el'.live = pre ++ r :: post) (place : Place pre r post)
      (depth : el'.lTreeDepth = el.lTreeDepth) (count : el'.lCount = el.lCount)
      (next : el'.lNextFreeRec ≤ el.lNextFreeRec + 1) : LeafInsert fs r el el'

theorem rotateLeaf_insert (h0 : el.lNextFreeRec ≠ 0) (h : el.lNextFreeRec < el.lCount) :
    ∃ el', rotateLeaf el r = some el' ∧ LeafInsert fs r el el' := by
  have hplace : ∀ rs : List ExtentRec,
      Place (rs.take (rs.findIdx fun x => decide (r.eCpos < x.eCpos))) r
        (rs.drop (rs.findIdx fun x => decide (r.eCpos < x.eCpos))) := by
    intro rs
    refine .inr ⟨fun x hx => ?_, fun x hx => ?_⟩
    · obtain ⟨i, hi, rfl⟩ := getElem_of_mem hx
      rw [length_take] at hi
      have := @not_of_lt_findIdx _ (fun x => decide (r.eCpos < x.eCpos)) rs i
        (lt_of_lt_of_le hi (min_le_left _ _))
      simpa using this
    · rw [head?_drop] at hx
      obtain ⟨hlt, rfl⟩ := List.getElem?_eq_some_iff.mp hx
      have := findIdx_getElem (w := hlt)
      simpa using this
  rw [rotateLeaf, if_neg h0]
  by_cases he : isEmptyExtent (el.recAt 0)
  · -- the empty record in front makes room for the new one
    rw [if_pos he]
    have hle := h.le
    obtain ⟨e, rest, hlive⟩ : ∃ e rest, el.live = e :: rest := exists_cons_of_length_pos (by
      rw [ExtentList.live_length hle]
      exact Nat.pos_of_ne_zero h0)
    have hrec : el.recAt 0 = e := ExtentList.recAt_live (by rw [hlive]; rfl)
    have hd := ExtentList.live_dropFirst hle
    have hc := ExtentList.lCount_dropFirst hle
    have hroom : (dropFirst el).lNextFreeRec < (dropFirst el).lCount := by
      rw [hc]
      show el.lNextFreeRec - 1 < _
      omega
    have hnew := ExtentList.live_insertSorted (dropFirst el) hroom.le r
    rw [hd, hlive, drop_one, tail_cons] at hnew
    refine ⟨_, rfl, .stored _ [e] _ _ (.inr ⟨e, rfl, hrec ▸ he⟩) ?_ hnew (hplace rest) rfl
      ((ExtentList.lCount_insertSorted hroom r).trans hc) ?_⟩
    · rw [take_append_drop, hlive]
      rfl
    · show el.lNextFreeRec - 1 + 1 ≤ _
      omega
  · rw [if_neg he, if_neg h.ne]
    exact ⟨_, rfl, .stored _ [] _ _ (.inl rfl) (take_append_drop ..).symm
      (ExtentList.live_insertSorted el h.le r) (hplace _) rfl
      (ExtentList.lCount_insertSorted h r) (le_refl _)⟩

/-- `ocfs2_insert_at_leaf` on a list with a free record. -/
theorem insertAtLeaf_insert (hd : el.lTreeDepth = 0) (h : el.lNextFreeRec < el.lCount) :
    ∃ el', insertAtLeaf fs r el ⟨.none, figureAppendingType el r, (figureContigType fs el r).1,
      (figureContigType fs el r).2⟩ = some el' ∧ LeafInsert fs r el el' := by
  rw [insertAtLeaf, if_neg (not_not_intro hd), if_neg (by simp)]
  by_cases hc : (figureContigType fs el r).1 = .none
  · rw [if_neg (not_not_intro hc)]
    by_cases hfirst : el.lNextFreeRec = 0 ∨ el.lNextFreeRec = 1 ∧ isEmptyExtent (el.recAt 0)
    · rw [if_pos hfirst]
      obtain ⟨y, ys, hrecs⟩ := exists_cons_of_length_pos (lt_of_le_of_lt (Nat.zero_le _) h)
      refine ⟨_, rfl, .stored _ el.live [] [] ?_ (append_nil _).symm ?_ (.inl ⟨rfl, nofun⟩)
        rfl ?_ ?_⟩
      · rcases hfirst with h0 | ⟨h1, he⟩
        · exact .inl (by rw [ExtentList.live, h0, take_zero])
        · refine .inr ⟨el.recAt 0, ?_, he⟩
          rw [ExtentList.live, ExtentList.recAt, h1, hrecs]
          rfl
      · simp [ExtentList.live, ExtentList.setRec, hrecs]
      · simp [ExtentList.lCount, ExtentList.setRec]
      · exact Nat.le_add_left 1 _
    · rw [if_neg hfirst]
      by_cases ha : figureAppendingType el r
      · -- behind the last record
        have hlast := ha
        rw [if_pos ha]
        rw [figureAppendingType, if_neg (fun h0 => hfirst (.inl h0)),
          if_neg (fun h1 => hfirst (.inr h1.symm))] at hlast
        have hend := of_decide_eq_true hlast
        refine ⟨_, if_pos hend, .stored _ [] el.live [] (.inl rfl) (append_nil _).symm
          (ExtentList.live_push h r) (.inl ⟨rfl, fun x hx => ?_⟩) rfl (ExtentList.lCount_push el r)
          (le_refl _)⟩
        rw [getLast?_eq_getElem?, ExtentList.live_length h.le] at hx
        rwa [ExtentList.recAt_live hx] at hend
      · rw [if_neg ha]
        exact rotateLeaf_insert (fun h0 => hfirst (.inl h0)) h
  · rw [if_pos hc]
    unfold figureContigType at hc ⊢
    cases hfind : el.live.findIdx? fun x => decide (extentRecContig fs x r ≠ .none) with
    | none =>
      rw [hfind] at hc
      exact absurd rfl hc
    | some i =>
      rw [hfind] at hc
      obtain ⟨hlt, -, -⟩ := findIdx?_eq_some_iff_getElem.mp hfind
      have hx := getElem?_eq_getElem hlt
      dsimp only at hc ⊢
      rw [ExtentList.recAt_live hx] at hc ⊢
      exact ⟨_, rfl, .merged i _ hx hc⟩

theorem LeafInsert.depth (h : LeafInsert fs r el el') : el'.lTreeDepth = el.lTreeDepth := by
  cases h with
  | merged => rfl
  | stored _ _ _ _ _ _ _ _ depth => exact depth

theorem LeafInsert.count (h : LeafInsert fs r el el') : el'.lCount = el.lCount := by
  cases h with
  | merged => simp [ExtentList.setRec, ExtentList.lCount]
  | stored _ _ _ _ _ _ _ _ _ count => exact count

theorem LeafInsert.next (h : LeafInsert fs r el el') :
    el'.lNextFreeRec ≤ el.lNextFreeRec + 1 := by
  cases h with
  | merged => exact Nat.le_succ _
  | stored _ _ _ _ _ _ _ _ _ _ next => exact next

/-- The root buffer after the insertion of `r`. -/
def withList (di : Dinode) (el : ExtentList) (r : ExtentRec) : Dinode :=
  { di with iList := el, iClusters := addW 32 di.iClusters r.eLeafClusters }

/-- **`ocfs2_tree_insert_extent` on a tree without blocks** that has a free record: the list is
    changed as `LeafInsert` says, and the root is written. -/
theorem treeInsertExtent_root {cpos blkno clusters flag : Nat} (hd : s.root.iList.lTreeDepth = 0)
    (h : s.root.iList.lNextFreeRec < s.root.iList.lCount) :
    ∃ el', LeafInsert fs (insertRecOf cpos blkno clusters flag) s.root.iList el' ∧
      treeInsertExtent fs cpos blkno clusters flag s =
        writeInode fs (withList s.root el' (insertRecOf cpos blkno clusters flag))
          { s with root := withList s.root el' (insertRecOf cpos blkno clusters flag) } := by
  generalize hr : insertRecOf cpos blkno clusters flag = r
  obtain ⟨el', hleaf, hins⟩ := @insertAtLeaf_insert fs r _ hd h
  refine ⟨el', hins, ?_⟩
  have hfree : ¬ ((figureContigType fs s.root.iList r).1 = .none ∧
      s.root.iList.freeRecords = 0) := by
    rw [ExtentList.freeRecords]
    omega
  have hbackup : backupRoot fs s = some (.ok none, s) := by
    rw [backupRoot, bind_ok (get_run s), if_pos hd]
    rfl
  have hfig : figureInsertType fs r (initEb fs 0) s = some (.ok (initEb fs 0,
      s.root.iList.freeRecords, ⟨.none, figureAppendingType s.root.iList r,
        (figureContigType fs s.root.iList r).1, (figureContigType fs s.root.iList r).2⟩), s) := by
    rw [figureInsertType, bind_ok (get_run s), if_pos hd]
    rfl
  have hrec : insertRecord fs r s = some (.ok (), { s with root := withList s.root el' r }) := by
    rw [insertRecord, bind_ok hfig]
    dsimp only
    rw [if_neg hfree, doInsertExtent, bind_ok (get_run s), if_pos hd, hleaf]
    rfl
  rw [treeInsertExtent, hr, bind_ok hbackup, bind_ok (attempt_run hrec)]
  rfl

theorem treeInsertExtent_root_ok {cpos blkno clusters flag : Nat} {t : St} {u : Unit}
    (hd : s.root.iList.lTreeDepth = 0) (h : s.root.iList.lNextFreeRec < s.root.iList.lCount)
    (hrun : treeInsertExtent fs cpos blkno clusters flag s = some (.ok u, t)) :
    ∃ el', LeafInsert fs (insertRecOf cpos blkno clusters flag) s.root.iList el' ∧
      t.root = withList s.root el' (insertRecOf cpos blkno clusters flag) ∧
      t.dev = { s.dev with inode := t.root } := by
  obtain ⟨el', hins, heq⟩ := @treeInsertExtent_root fs s cpos blkno clusters flag hd h
  rw [heq] at hrun
  obtain rfl := writeInode_inv hrun
  exact ⟨el', hins, rfl, rfl⟩

theorem diskRecs_root {ebs : Nat → Option ExtentBlock} (hd : el.lTreeDepth = 0) :
    diskRecs ebs el = el.nonempty := by
  rw [diskRecs, hd]
  rfl

/-! ### Ordered lists -/

/-- `r` and one more record in one: `x` in front of `r`. -/
def joinRight (x r : ExtentRec) : ExtentRec :=
  { x with eLeafClusters := x.eLeafClusters + r.eLeafClusters }

/-- `r` and one more record in one: `x` behind `r`. -/
def joinLeft (x r : ExtentRec) : ExtentRec :=
  { x with
    eCpos := r.eCpos
    eBlkno := r.eBlkno
    eLeafClusters := x.eLeafClusters + r.eLeafClusters }

/-- The records with `r` besides: as a record of its own, or joined with a neighbour. -/
inductive Inserted (fs : Filesys) (r : ExtentRec) : List ExtentRec → List ExtentRec → Prop
  | new (pre post : List ExtentRec)
      (before : ∀ x ∈ pre, x.eCpos + x.eLeafClusters ≤ r.eCpos)
      (behind : ∀ x ∈ post, r.eCpos + r.eLeafClusters ≤ x.eCpos) :
      Inserted fs r (pre ++ post) (pre ++ r :: post)
  | right (pre post : List ExtentRec) (x : ExtentRec) (flags : x.eFlags = r.eFlags)
      (adjacent : x.eCpos + x.eLeafClusters = r.eCpos)
      (blocks : x.eBlkno + clustersToBlocks fs x.eLeafClusters = r.eBlkno)
      (short : x.eLeafClusters + r.eLeafClusters < 65536)
      (behind : ∀ y ∈ post, r.eCpos + r.eLeafClusters ≤ y.eCpos) :
      Inserted fs r (pre ++ x :: post) (pre ++ joinRight x r :: post)
  | left (pre post : List ExtentRec) (x : ExtentRec) (flags : x.eFlags = r.eFlags)
      (adjacent : r.eCpos + r.eLeafClusters = x.eCpos)
      (blocks : r.eBlkno + clustersToBlocks fs r.eLeafClusters = x.eBlkno)
      (short : x.eLeafClusters + r.eLeafClusters < 65536)
      (before : ∀ y ∈ pre, y.eCpos + y.eLeafClusters ≤ r.eCpos) :
      Inserted fs r (pre ++ x :: post) (pre ++ joinLeft x r :: post)

theorem recsMap_eq_some {recs : List ExtentRec} (hs : Spaced eCpos eLeafClusters lo recs hi)
    {y : Nat × Nat} : recsMap fs recs v = some y ↔ ∃ x ∈ recs, x.phys fs v = some y := by
  constructor
  · exact exists_of_findSome?_eq_some
  · rintro ⟨x, hx, hy⟩
    unfold phys at hy
    split at hy
    · next hc => rw [recsMap_of_mem hs hx hc, hy]
    · cases hy

/-- A record `z` that is `x` and behind it `y`. -/
theorem phys_join {y z : ExtentRec} {p : Nat × Nat} (hz : z.eCpos = x.eCpos ∧
      z.eLeafClusters = x.eLeafClusters + y.eLeafClusters ∧ z.eBlkno = x.eBlkno ∧
      z.eFlags = x.eFlags ∧ x.eFlags = y.eFlags)
    (hadj : x.eCpos + x.eLeafClusters = y.eCpos)
    (hblk : x.eBlkno + clustersToBlocks fs x.eLeafClusters = y.eBlkno) :
    z.phys fs v = some p ↔ x.phys fs v = some p ∨ y.phys fs v = some p := by
  obtain ⟨h1, h2, h3, h4, h5⟩ := hz
  have hz : Covers eCpos eLeafClusters z v ↔ Covers eCpos eLeafClusters x v ∨
      Covers eCpos eLeafClusters y v := by
    unfold Covers
    omega
  have hno : Covers eCpos eLeafClusters x v → ¬Covers eCpos eLeafClusters y v := by
    unfold Covers
    omega
  unfold phys
  by_cases hx : Covers eCpos eLeafClusters x v
  · rw [if_pos (hz.mpr (.inl hx)), if_pos hx, if_neg (hno hx), h1, h3, h4]
    simp
  · by_cases hy : Covers eCpos eLeafClusters y v
    · have hsub : v - x.eCpos = x.eLeafClusters + (v - y.eCpos) := by
        have := hy.1
        omega
      have hsum : x.eBlkno + clustersToBlocks fs (v - x.eCpos) =
          y.eBlkno + clustersToBlocks fs (v - y.eCpos) := by
        rw [hsub, ← hblk, clustersToBlocks, Nat.add_mul, Nat.add_assoc]
        rfl
      rw [if_pos (hz.mpr (.inr hy)), if_neg hx, if_pos hy, h1, h3, h4, hsum, h5]
      simp
    · rw [if_neg fun h => (hz.mp h).elim hx hy, if_neg hx, if_neg hy]
      simp

section Inserted

variable {recs recs' : List ExtentRec} (h : Inserted fs r recs recs')

include h

theorem Inserted.spaced (hs : Spaced eCpos eLeafClusters lo recs hi) (hpos : 0 < r.eLeafClusters)
    (hlo : lo ≤ r.eCpos) (hhi : r.eCpos + r.eLeafClusters ≤ hi) :
    Spaced eCpos eLeafClusters lo recs' hi := by
  cases h with
  | new pre post before behind =>
    obtain ⟨m, h1, h2⟩ := spaced_append.mp hs
    exact spaced_append.mpr ⟨r.eCpos, h1.restrict before hlo, le_refl _, hpos,
      h2.raise behind hhi⟩
  | right pre post x _ adjacent _ _ behind =>
    obtain ⟨m, h1, h2, h3, h4⟩ := spaced_append.mp hs
    have hend : x.eCpos + (x.eLeafClusters + r.eLeafClusters) = r.eCpos + r.eLeafClusters := by
      omega
    exact spaced_append.mpr ⟨m, h1, h2, Nat.add_pos_left h3 _, hend ▸ h4.raise behind hhi⟩
  | left pre post x _ adjacent _ _ before =>
    obtain ⟨m, h1, h2, h3, h4⟩ := spaced_append.mp hs
    have hend : r.eCpos + (x.eLeafClusters + r.eLeafClusters) = x.eCpos + x.eLeafClusters := by
      omega
    exact spaced_append.mpr ⟨r.eCpos, h1.restrict before hlo, le_refl _, Nat.add_pos_left h3 _,
      hend ▸ h4⟩

theorem Inserted.recs_ok (hs : ∀ x ∈ recs, RecOk fs x) (hr : RecOk fs r) :
    ∀ x ∈ recs', RecOk fs x := by
  have hdiv : ∀ b n : Nat, (b + clustersToBlocks fs n) / fs.bpc = b / fs.bpc + n := fun b n =>
    Nat.add_mul_div_right _ _ fs.bpc_pos
  cases h with
  | new pre post =>
    obtain ⟨h1, h2⟩ := forall_mem_append.mp hs
    exact forall_mem_append.mpr ⟨h1, forall_mem_cons.mpr ⟨hr, h2⟩⟩
  | right pre post x _ _ blocks short =>
    obtain ⟨h1, h2⟩ := forall_mem_append.mp hs
    obtain ⟨hx, h2⟩ := forall_mem_cons.mp h2
    refine forall_mem_append.mpr ⟨h1, forall_mem_cons.mpr ⟨?_, h2⟩⟩
    have hb := hr.bound
    rw [← blocks, hdiv] at hb
    exact ⟨⟨hx.fits.1, short, hx.fits.3, hx.fits.4⟩, hx.blkno_ne, hx.aligned, by
      rw [joinRight, ← Nat.add_assoc]; exact hb⟩
  | left pre post x _ _ blocks short =>
    obtain ⟨h1, h2⟩ := forall_mem_append.mp hs
    obtain ⟨hx, h2⟩ := forall_mem_cons.mp h2
    refine forall_mem_append.mpr ⟨h1, forall_mem_cons.mpr ⟨?_, h2⟩⟩
    have hb := hx.bound
    rw [← blocks, hdiv] at hb
    exact ⟨⟨hr.fits.1, short, hx.fits.3, hx.fits.4⟩, hr.blkno_ne, hr.aligned, by
      show r.eBlkno / fs.bpc + (x.eLeafClusters + r.eLeafClusters) ≤ _
      omega⟩

theorem Inserted.phys_iff (y : Nat × Nat) : (∃ x ∈ recs', x.phys fs v = some y) ↔
    r.phys fs v = some y ∨ ∃ x ∈ recs, x.phys fs v = some y := by
  -- a record that covers what two do, and says the same of it
  have hjoin : ∀ {pre post : List ExtentRec} {x z : ExtentRec},
      (z.phys fs v = some y ↔ r.phys fs v = some y ∨ x.phys fs v = some y) →
      ((∃ w ∈ pre ++ z :: post, w.phys fs v = some y) ↔
        r.phys fs v = some y ∨ ∃ w ∈ pre ++ x :: post, w.phys fs v = some y) := by
    intro pre post x z hz
    simp only [mem_append, mem_cons, or_and_right, exists_or, exists_eq_left, hz]
    grind
  cases h with
  | new pre post =>
    simp only [mem_append, mem_cons, or_and_right, exists_or, exists_eq_left]
    grind
  | right pre post x flags adjacent blocks =>
    have hz := phys_join (v := v) (x := x) (z := joinRight x r) (p := y)
      ⟨rfl, rfl, rfl, rfl, flags⟩ adjacent blocks
    exact hjoin (hz.trans or_comm)
  | left pre post x flags adjacent blocks =>
    exact hjoin (phys_join (z := joinLeft x r) ⟨rfl, Nat.add_comm _ _, rfl, flags, flags.symm⟩
      adjacent blocks)

theorem Inserted.map (hs : Spaced eCpos eLeafClusters lo recs hi)
    (hs' : Spaced eCpos eLeafClusters lo recs' hi) (v : Nat) :
    recsMap fs recs' v = (r.phys fs v).or (recsMap fs recs v) := by
  cases hr : r.phys fs v with
  | some y => exact (recsMap_eq_some hs').mpr ((h.phys_iff y).mpr (.inl hr))
  | none =>
    ext y
    rw [Option.none_or, recsMap_eq_some hs', h.phys_iff, recsMap_eq_some hs, hr]
    simp

theorem Inserted.clusters_le : ∀ x ∈ recs', x.eLeafClusters = r.eLeafClusters ∨
    ∃ y ∈ recs, x.eLeafClusters ≤ y.eLeafClusters + r.eLeafClusters := by
  intro x hx
  have hold : x ∈ recs → ∃ y ∈ recs, x.eLeafClusters ≤ y.eLeafClusters + r.eLeafClusters :=
    fun hx => ⟨x, hx, Nat.le_add_right _ _⟩
  cases h with
  | new pre post =>
    rcases mem_append.mp hx with hx | hx
    · exact .inr (hold (by simp [hx]))
    rcases mem_cons.mp hx with rfl | hx
    · exact .inl rfl
    · exact .inr (hold (by simp [hx]))
  | right pre post y | left pre post y =>
    rcases mem_append.mp hx with hx | hx
    · exact .inr (hold (by simp [hx]))
    rcases mem_cons.mp hx with rfl | hx
    · exact .inr ⟨y, by simp, le_refl _⟩
    · exact .inr (hold (by simp [hx]))

end Inserted

theorem split_getElem? {α : Type} {l : List α} {i : Nat} {a : α} (h : l[i]? = some a) :
    ∃ pre post, l = pre ++ a :: post ∧ ∀ b, l.set i b = pre ++ b :: post := by
  obtain ⟨hlt, rfl⟩ := List.getElem?_eq_some_iff.mp h
  refine ⟨l.take i, l.drop (i + 1), ?_, fun b => ?_⟩
  · rw [← drop_eq_getElem_cons hlt, take_append_drop]
  · rw [set_eq_take_append_cons_drop, if_pos hlt]

/-- There is a hole in the list for `r`, and `r` can be joined with its neighbours there. -/
structure Hole (fs : Filesys) (recs : List ExtentRec) (r : ExtentRec) : Prop where
  ok : RecOk fs r
  pos : 0 < r.eLeafClusters
  free : ∀ x ∈ recs, x.eCpos + x.eLeafClusters ≤ r.eCpos ∨ r.eCpos + r.eLeafClusters ≤ x.eCpos
  short : ∀ x ∈ recs, extentRecContig fs x r ≠ .none → x.eLeafClusters + r.eLeafClusters < 65536
  last : r.eCpos + r.eLeafClusters = 4294967296 → ∀ x ∈ recs, extentRecContig fs x r ≠ .left

theorem RecOk.blocks_lt (h : RecOk fs r) :
    r.eBlkno + clustersToBlocks fs r.eLeafClusters < 2 ^ 64 := by
  obtain ⟨k, hk⟩ := h.aligned
  have hb := h.bound
  rw [hk, Nat.mul_div_cancel_left _ fs.bpc_pos] at hb
  have hmul : (k + r.eLeafClusters) * fs.bpc ≤ uint32Max * 2048 := Nat.mul_le_mul hb fs.bpc_le
  rw [clustersToBlocks, hk, Nat.mul_comm, ← Nat.add_mul]
  exact lt_of_le_of_lt hmul (by decide)

theorem extentRecContig_cases (h : extentRecContig fs x r ≠ .none) : x.eFlags = r.eFlags ∧
    (extentRecContig fs x r = .right ∧ addW 32 x.eCpos x.eLeafClusters = r.eCpos ∧
        r.eBlkno = addW 64 x.eBlkno (clustersToBlocks fs x.eLeafClusters) ∨
      extentRecContig fs x r = .left ∧ addW 32 r.eCpos r.eLeafClusters = x.eCpos ∧
        x.eBlkno = addW 64 r.eBlkno (clustersToBlocks fs r.eLeafClusters)) := by
  unfold extentRecContig at h ⊢
  split at h
  · exact absurd rfl h
  · next hf =>
    rw [if_neg hf]
    refine ⟨not_not.mp hf, ?_⟩
    split at h
    · next hadj =>
      rw [if_pos hadj]
      simp only [extentsAdjacent, blockExtentContig, Bool.and_eq_true, beq_iff_eq] at hadj
      exact .inl ⟨rfl, hadj⟩
    · next hnot =>
      rw [if_neg hnot]
      split at h
      · next hadj =>
        rw [if_pos hadj]
        simp only [extentsAdjacent, blockExtentContig, Bool.and_eq_true, beq_iff_eq] at hadj
        exact .inr ⟨rfl, hadj⟩
      · exact absurd rfl h

theorem extentRecContig_zero (hr : RecOk fs r) : extentRecContig fs ExtentRec.zero r = .none := by
  have hne := hr.blkno_ne
  have hb := addW_eq hr.blocks_lt
  have h1 : blockExtentContig fs ExtentRec.zero r.eBlkno = false := by
    simpa [blockExtentContig, ExtentRec.zero, addW, clustersToBlocks] using hne
  have h2 : blockExtentContig fs r ExtentRec.zero.eBlkno = false := by
    simp only [blockExtentContig, hb, ExtentRec.zero, beq_eq_false_iff_ne]
    omega
  simp [extentRecContig, h1, h2]

section Ordered

variable {pre post : List ExtentRec} (hhi : hi ≤ uint32Max)
include hhi

/-- The record that is joined keeps its place between its neighbours. -/
theorem Hole.merge (hr : Hole fs (pre ++ x :: post) r) (hx : RecOk fs x)
    (hsp : Spaced eCpos eLeafClusters lo (pre ++ x :: post) hi)
    (hend : r.eCpos + r.eLeafClusters ≤ 4294967296) (contig : extentRecContig fs x r ≠ .none) :
    Inserted fs r (pre ++ x :: post) (pre ++ mergeRec (extentRecContig fs x r) x r :: post) := by
  have hmem : x ∈ pre ++ x :: post := by simp
  have hshort := hr.short x hmem contig
  have hfree : ∀ y, y ∈ pre ∨ y ∈ post →
      y.eCpos + y.eLeafClusters ≤ r.eCpos ∨ r.eCpos + r.eLeafClusters ≤ y.eCpos :=
    fun y hy => hr.free y (by simp; tauto)
  have hxend := (hsp.mem_bounds x hmem).2.2
  obtain ⟨m, h1, h2, h3, h4⟩ := spaced_append.mp hsp
  have hlen : addW 16 x.eLeafClusters r.eLeafClusters = x.eLeafClusters + r.eLeafClusters :=
    addW_eq hshort
  obtain ⟨hf, ⟨hc, hadj, hblk⟩ | ⟨hc, hadj, hblk⟩⟩ := extentRecContig_cases contig
  · rw [addW_32_eq (by unfold uint32Max at hhi; omega)] at hadj
    rw [addW_eq hx.blocks_lt] at hblk
    have hm : mergeRec .right x r = joinRight x r := by simp [mergeRec, joinRight, hlen]
    rw [hc, hm]
    refine .right pre post x hf hadj hblk.symm hshort fun y hy => ?_
    have := h4.mem_bounds y hy
    have := hfree y (.inr hy)
    omega
  · rw [addW_32_eq (Nat.lt_of_le_of_ne hend fun heq => hr.last heq x hmem hc)] at hadj
    rw [addW_eq hr.ok.blocks_lt] at hblk
    have hm : mergeRec .left x r = joinLeft x r := by simp [mergeRec, joinLeft, hlen]
    rw [hc, hm]
    refine .left pre post x hf hadj hblk.symm hshort fun y hy => ?_
    have := h1.mem_bounds y hy
    have := hfree y (.inl hy)
    omega

/-- What stands in front of the place of a record ends before it, and what stands behind it
    starts behind it. -/
theorem Hole.store (hr : Hole fs (pre ++ post) r)
    (hsp : Spaced eCpos eLeafClusters lo (pre ++ post) hi) (place : Place pre r post) :
    Inserted fs r (pre ++ post) (pre ++ r :: post) := by
  have hfree := hr.free
  have hpos := hr.pos
  obtain ⟨m, h1, h2⟩ := spaced_append.mp hsp
  rcases place with ⟨rfl, hlast⟩ | ⟨hbefore, hbehind⟩
  · refine .new pre [] (fun x hx => ?_) (forall_mem_nil _)
    rcases eq_nil_or_concat pre with rfl | ⟨init, l, rfl⟩
    · cases hx
    rw [concat_eq_append] at hlast hx h1 hsp
    have hl := hlast l (by rw [getLast?_append]; rfl)
    obtain ⟨k, h3, h4⟩ := spaced_append.mp h1
    have hb := hsp.mem_bounds l (by simp)
    rw [addW_32_eq (by unfold uint32Max at hhi; omega)] at hl
    rcases mem_append.mp hx with hx | hx
    · have := (h3.mem_bounds x hx).2.2
      have := h4.1
      omega
    · obtain rfl := mem_singleton.mp hx
      exact hl
  · refine .new pre post (fun x hx => ?_) fun x hx => ?_
    · have := hbefore x hx
      have := hfree x (mem_append_left _ hx)
      omega
    · cases post with
      | nil => cases hx
      | cons y post =>
        have := hbehind y rfl
        have := hfree x (mem_append_right _ hx)
        have := (h2.mem_bounds x hx).2.1
        rcases mem_cons.mp hx with rfl | hx
        · omega
        · have := (h2.2.2.mem_bounds x hx).1
          omega

end Ordered

theorem LeafOk.live_split (hok : LeafOk fs lo hi el) :
    ∃ w, el.live = w ++ el.nonempty ∧ (w = [] ∨ w = [ExtentRec.zero]) := by
  rw [hok.nonempty_eq]
  rcases live_eq_dropEmpty el.live with h | h
  · exact ⟨[], h, .inl rfl⟩
  · exact ⟨[ExtentRec.zero], h, .inr rfl⟩

theorem Place.of_append {z pre post : List ExtentRec} (h : Place (z ++ pre) r post) :
    Place pre r post := by
  rcases h with ⟨rfl, hlast⟩ | ⟨hbefore, hbehind⟩
  · refine .inl ⟨rfl, fun x hx => hlast x ?_⟩
    rw [getLast?_append, hx]
    rfl
  · exact .inr ⟨fun x hx => hbefore x (mem_append_right _ hx), hbehind⟩

/-- On an ordered leaf list with a hole for the record, what `LeafInsert` leaves is the list with
    the record besides. -/
theorem LeafInsert.inserted (h : LeafInsert fs r el el') (hok : LeafOk fs lo hi el)
    (hhi : hi ≤ uint32Max) (hend : r.eCpos + r.eLeafClusters ≤ 4294967296)
    (hr : Hole fs el.nonempty r) : ∃ z recs', (z = [] ∨ z = [ExtentRec.zero]) ∧
      el'.live = z ++ recs' ∧ Inserted fs r el.nonempty recs' := by
  have hsp := hok.nonempty_spaced
  obtain ⟨w, hlive, hw⟩ := hok.live_split
  cases h with
  | merged i x found contig =>
    -- the record is not the empty one in front
    obtain ⟨j, hj, hset⟩ : ∃ j, el.nonempty[j]? = some x ∧
        ∀ y, el.live.set i y = w ++ el.nonempty.set j y := by
      rcases hw with rfl | rfl
      · rw [hlive] at found ⊢
        exact ⟨i, found, fun _ => rfl⟩
      · rw [hlive] at found ⊢
        cases i with
        | zero =>
          cases found
          exact absurd (extentRecContig_zero hr.ok) contig
        | succ j => exact ⟨j, found, fun _ => rfl⟩
    have hx : RecOk fs x := hok.recs x (hok.nonempty_eq ▸ mem_of_getElem? hj)
    obtain ⟨pre, post, hsplit, hset'⟩ := split_getElem? hj
    rw [hsplit] at hsp hr
    refine ⟨w, _, hw, ?_, hsplit ▸ hr.merge hhi hx hsp hend contig⟩
    rw [ExtentList.live_setRec, hset, hset']
  | stored _ z pre post empty old new place =>
    -- an empty record in front of the list goes away or stays
    obtain ⟨z', pre', hz', rfl, hne⟩ : ∃ z' pre', (z' = [] ∨ z' = [ExtentRec.zero]) ∧
        pre = z' ++ pre' ∧ el.nonempty = pre' ++ post := by
      have hcut := hlive.symm.trans old
      rcases empty with rfl | ⟨e, rfl, he⟩
      · rcases hw with rfl | rfl
        · exact ⟨[], pre, .inl rfl, rfl, hcut⟩
        · -- nothing starts before the empty record
          cases pre with
          | nil =>
            obtain rfl : post = ExtentRec.zero :: el.nonempty := hcut.symm
            rcases place with ⟨h, -⟩ | ⟨-, h⟩
            · cases h
            · exact absurd (h _ rfl) (Nat.not_lt_zero _)
          | cons p pre =>
            obtain ⟨rfl, hne⟩ := cons_eq_cons.mp hcut
            exact ⟨[ExtentRec.zero], pre, .inr rfl, rfl, hne⟩
      · rcases hw with rfl | rfl
        · have hmem : e ∈ el.nonempty := by
            rw [show el.nonempty = e :: (pre ++ post) from hcut]
            exact mem_cons_self
          have := (hsp.mem_bounds e hmem).2.1
          simp only [isEmptyExtent, beq_iff_eq] at he
          omega
        · exact ⟨[], pre, .inl rfl, rfl, (cons_eq_cons.mp hcut).2⟩
    rw [hne] at hsp hr
    exact ⟨z', _, hz', by rw [new, append_assoc], hne ▸ hr.store hhi hsp place.of_append⟩

theorem LeafInsert.leafOk {hi' : Nat} (h : LeafInsert fs r el el') (hok : LeafOk fs lo hi el)
    (hhi : hi ≤ uint32Max) (hroom : el.lNextFreeRec < el.lCount) (hr : Hole fs el.nonempty r)
    (hlo : lo ≤ r.eCpos) (hle : hi ≤ hi') (hend : r.eCpos + r.eLeafClusters ≤ hi')
    (hmax : hi' ≤ 4294967296) : LeafOk fs lo hi' el' ∧ Inserted fs r el.nonempty el'.nonempty := by
  obtain ⟨z, recs, hz, hlive, hins⟩ := h.inserted hok hhi (le_trans hend hmax) hr
  have hsp := hins.spaced (hok.nonempty_spaced.weaken (le_refl _) hle) hr.pos hlo hend
  have hrecs := hins.recs_ok (fun x hx => hok.recs x (hok.nonempty_eq ▸ hx)) hr.ok
  have hdrop : dropEmpty el'.live = recs := by
    rw [hlive]
    rcases hz with rfl | rfl
    · refine (eq_dropEmpty fun hhead => ?_).symm
      exact (hrecs _ (mem_of_mem_head? hhead)).blkno_ne rfl
    · rfl
  have hok' : LeafOk fs lo hi' el' := by
    refine ⟨h.depth.trans hok.depth, ?_, hdrop.symm ▸ hsp, hdrop.symm ▸ hrecs⟩
    have := h.next
    rw [h.count]
    omega
  exact ⟨hok', by rw [hok'.nonempty_eq, hdrop]; exact hins⟩

/-- Whatever the list is, below the last cluster only the new clusters can be mapped besides what
    was. -/
theorem LeafInsert.covers (h : LeafInsert fs r el el')
    (hv : v < uint32Max) (hx : ∃ x ∈ el'.nonempty, Covers eCpos eLeafClusters x v) :
    Covers eCpos eLeafClusters r v ∨ ∃ x ∈ el.nonempty, Covers eCpos eLeafClusters x v := by
  have hlive : ∀ x ∈ el.live, Covers eCpos eLeafClusters x v →
      ∃ x ∈ el.nonempty, Covers eCpos eLeafClusters x v := by
    intro x hx hc
    refine ⟨x, mem_filter.mpr ⟨hx, ?_⟩, hc⟩
    have := hc.1
    have := hc.2
    simp only [isEmptyExtent, Bool.not_eq_true', beq_eq_false_iff_ne]
    omega
  obtain ⟨y, hy, hc⟩ := hx
  have hy := (mem_filter.mp hy).1
  cases h with
  | merged i x found contig =>
    obtain ⟨pre, post, hsplit, hset⟩ := split_getElem? found
    rw [ExtentList.live_setRec, hset] at hy
    rw [hsplit] at hlive
    rcases mem_append.mp hy with hy | hy
    · exact .inr (hlive y (by simp [hy]) hc)
    rcases mem_cons.mp hy with rfl | hy
    · -- where the sum is less than `v` it has not wrapped around
      have hlen : ∀ a b : Nat, addW 16 a b ≤ a + b := fun _ _ => Nat.mod_le _ _
      have hsum := hlen x.eLeafClusters r.eLeafClusters
      have hmem := hlive x (by simp)
      unfold Covers at hc hmem ⊢
      unfold uint32Max at hv
      obtain ⟨-, ⟨hr', hadj, -⟩ | ⟨hr', hadj, -⟩⟩ := extentRecContig_cases contig
      · rw [hr'] at hc
        have h1 : x.eCpos ≤ v := hc.1
        have h2 : v < x.eCpos + addW 16 x.eLeafClusters r.eLeafClusters := hc.2
        by_cases hx : v < x.eCpos + x.eLeafClusters
        · exact .inr (hmem ⟨h1, hx⟩)
        · rw [addW_32_eq (by omega)] at hadj
          exact .inl (by omega)
      · rw [hr'] at hc
        have h1 : r.eCpos ≤ v := hc.1
        have h2 : v < r.eCpos + addW 16 x.eLeafClusters r.eLeafClusters := hc.2
        by_cases hx : v < r.eCpos + r.eLeafClusters
        · exact .inl ⟨h1, hx⟩
        · rw [addW_32_eq (by omega)] at hadj
          exact .inr (hmem (by omega))
    · exact .inr (hlive y (by simp [hy]) hc)
  | stored _ z pre post _ old new =>
    rw [new] at hy
    rcases mem_append.mp hy with hy | hy
    · exact .inr (hlive y (by simp [old, hy]) hc)
    rcases mem_cons.mp hy with rfl | hy
    · exact .inl hc
    · exact .inr (hlive y (by simp [old, hy]) hc)

/-! ### The file after an insertion -/

section File

variable {cpos start m flag : Nat}

theorem insertRecOf_ok (hc : cpos < 4294967296) (hm : m < 65536) (hs : 0 < start)
    (hb : start + m ≤ uint32Max) :
    RecOk fs (insertRecOf cpos (clustersToBlocks fs start) m flag) := by
  have hblk : (insertRecOf cpos (clustersToBlocks fs start) m flag).eBlkno / fs.bpc = start :=
    Nat.mul_div_cancel _ fs.bpc_pos
  refine ⟨⟨hc, Nat.mod_lt _ (by decide), Nat.zero_lt_succ _, Nat.mod_lt _ (by decide)⟩, ?_,
    Nat.dvd_mul_left _ _, ?_⟩
  · exact ne_of_gt (Nat.mul_pos hs fs.bpc_pos)
  · rw [hblk]
    show start + m % 65536 ≤ _
    rwa [Nat.mod_eq_of_lt hm]

/-- A run of `m` clusters from `start` on that the file can take at `cpos`: it maps nothing there,
    and no record gets longer than 16 bits can say. -/
structure Fitting (fs : Filesys) (el : ExtentList) (cpos start m : Nat) : Prop where
  pos : 0 < m
  len : m < 65536
  start_pos : 0 < start
  start_le : start + m ≤ uint32Max
  end_le : cpos + m ≤ uint32Max
  free : ∀ w, cpos ≤ w → w < cpos + m → recsMap fs el.nonempty w = none
  short : ∀ x ∈ el.nonempty, x.eLeafClusters + m < 65536

theorem Fitting.hole (h : Fitting fs el cpos start m) (hok : LeafOk fs 0 uint32Max el) :
    Hole fs el.nonempty (insertRecOf cpos (clustersToBlocks fs start) m flag) := by
  have hlen : m % 65536 = m := Nat.mod_eq_of_lt h.len
  have hend := h.end_le
  have hpos := h.pos
  unfold uint32Max at hend
  refine ⟨insertRecOf_ok (by omega) h.len h.start_pos h.start_le, ?_, fun x hx => ?_,
    fun x hx _ => ?_, fun heq => ?_⟩
  · show 0 < m % 65536
    omega
  · -- the greater one of the two starts would be in both
    show x.eCpos + x.eLeafClusters ≤ cpos ∨ cpos + m % 65536 ≤ x.eCpos
    by_contra hno
    have hb := (hok.nonempty_spaced.mem_bounds x hx).2.1
    refine recsMap_eq_none.mp (h.free (max x.eCpos cpos) (le_max_right _ _) ?_) x hx
      ⟨le_max_left _ _, ?_⟩
    · omega
    · show max x.eCpos cpos < x.eCpos + x.eLeafClusters
      omega
  · show x.eLeafClusters + m % 65536 < 65536
    have := h.short x hx
    omega
  · have heq : cpos + m % 65536 = 4294967296 := heq
    omega

theorem LeafInsert.adds
    (h : LeafInsert fs (insertRecOf cpos (clustersToBlocks fs start) m flag) el el')
    (hok : LeafOk fs 0 uint32Max el) (hroom : el.lNextFreeRec < el.lCount)
    (hf : Fitting fs el cpos start m) : LeafOk fs 0 uint32Max el' ∧
      (∀ w, recsMap fs el'.nonempty w = if cpos ≤ w ∧ w < cpos + m then
        some (clustersToBlocks fs (start + (w - cpos)), flag % 256)
      else recsMap fs el.nonempty w) ∧
      ∀ x ∈ el'.nonempty, x.eLeafClusters = m ∨
        ∃ y ∈ el.nonempty, x.eLeafClusters ≤ y.eLeafClusters + m := by
  have hlen : m % 65536 = m := Nat.mod_eq_of_lt hf.len
  have hend : cpos + m % 65536 ≤ uint32Max := hlen.symm ▸ hf.end_le
  obtain ⟨hok', hins⟩ := h.leafOk hok (le_refl _) hroom (hf.hole hok) (Nat.zero_le _) (le_refl _)
    hend (by decide)
  refine ⟨hok', fun w => ?_, fun x hx => ?_⟩
  · rw [hins.map hok.nonempty_spaced hok'.nonempty_spaced, phys]
    have hc : Covers eCpos eLeafClusters (insertRecOf cpos (clustersToBlocks fs start) m flag) w ↔
        cpos ≤ w ∧ w < cpos + m := by
      show cpos ≤ w ∧ w < cpos + m % 65536 ↔ _
      rw [hlen]
    by_cases hw : cpos ≤ w ∧ w < cpos + m
    · have hblk : clustersToBlocks fs (start + (w - cpos)) =
          clustersToBlocks fs start + clustersToBlocks fs (w - cpos) := Nat.add_mul _ _ _
      rw [if_pos (hc.mpr hw), if_pos hw, hblk]
      rfl
    · rw [if_neg (mt hc.mp hw), if_neg hw]
      rfl
  · have hnew : (insertRecOf cpos (clustersToBlocks fs start) m flag).eLeafClusters = m := hlen
    simpa only [hnew] using hins.clusters_le x hx

end File

end Ocfs2Tools
