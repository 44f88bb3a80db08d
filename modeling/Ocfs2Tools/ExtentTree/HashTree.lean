import Ocfs2Tools.ExtentTree.Path

/-!
# Extent trees over hashes

The index of a directory and the extended attributes of an inode are extent trees whose
positions are hashes. The records are in the order of the hashes they start at, and an
interior record starts where the first record below it does. A hash belongs to the last
record that starts at or before it (`floorRec`); on such a tree `ocfs2_find_path` ends in the
leaf that has this record.
-/

namespace Ocfs2Tools

open List Prog ExtentRec

variable {fs : Filesys} {s : St} {h lo hi : Nat} {el : ExtentList} {r : ExtentRec}

/-! ### Ordered trees -/

/-- The trees below the records `rs`, whose hashes end at `hi`. Each record reaches up to
    the next one; `left` says that the first one is the leftmost of the whole tree. -/
def HashKids (P : Bool → Nat → Nat → Node → Prop) (hi : Nat) :
    Bool → List ExtentRec → List Node → Prop
  | left, [r], [k] => r.eCpos < 4294967296 ∧ P left r.eCpos hi k
  | left, r :: r' :: rs, k :: ks =>
    r.eCpos + r.eIntClusters = r'.eCpos ∧ P left r.eCpos r'.eCpos k ∧
      HashKids P hi false (r' :: rs) ks
  | _, _, _ => False

/-- The first record of a list over `[lo, hi)`: away from the left edge of the tree it
    starts where the record above does. -/
def StartsAt (left : Bool) (lo : Nat) (rs : List ExtentRec) : Prop :=
  ∀ r rs', rs = r :: rs' → lo ≤ r.eCpos ∧ (left = false → r.eCpos = lo)

/-- A tree of depth `d` over the hashes `[lo, hi)`. A leaf may start with an empty record;
    the only leaf without other records is the leftmost one. -/
def HashTree : Nat → Bool → Nat → Nat → ExtentList → List Node → Prop
  | 0, left, lo, hi, el, ks => el.lTreeDepth = 0 ∧ el.lNextFreeRec ≤ el.lCount ∧ ks = [] ∧
      (el.live = el.nonempty ∨ el.live = ExtentRec.zero :: el.nonempty) ∧
      (∀ r ∈ el.nonempty, r.eBlkno ≠ 0) ∧
      Spaced eCpos (fun _ => 1) lo el.nonempty hi ∧
      StartsAt left lo el.nonempty ∧ (left = false → el.nonempty ≠ [])
  | d + 1, left, lo, hi, el, ks => el.lTreeDepth = d + 1 ∧ el.lNextFreeRec ≤ el.lCount ∧
      StartsAt left lo el.live ∧
      HashKids (fun left lo hi k => HashTree d left lo hi k.eb.hList k.kids) hi left el.live ks

/-- The last record that starts at or before a hash. -/
def floorRec (h : Nat) (rs : List ExtentRec) : Option ExtentRec :=
  rs.reverse.find? fun r => decide (r.eCpos ≤ h)

theorem floorRec_append (h : Nat) (as bs : List ExtentRec) :
    floorRec h (as ++ bs) = (floorRec h bs).or (floorRec h as) := by
  simp [floorRec, find?_append]

theorem floorRec_eq_none {rs : List ExtentRec} : floorRec h rs = none ↔ ∀ r ∈ rs, h < r.eCpos := by
  simp [floorRec]

/-- What a subtree tells about its records: they are in order, and away from the left edge
    one of them starts at its first hash. -/
structure HashRecs (left : Bool) (lo hi : Nat) (recs : List ExtentRec) : Prop where
  spaced : Spaced eCpos (fun _ => 1) lo recs hi
  first : left = false → ∃ r ∈ recs, r.eCpos = lo

theorem HashRecs.bounds {left : Bool} {recs : List ExtentRec} (h : HashRecs left lo hi recs) :
    ∀ r ∈ recs, lo ≤ r.eCpos ∧ r.eCpos < hi := by
  intro r hr
  have := h.spaced.mem_bounds r hr
  omega

theorem HashRecs.floor_some {recs : List ExtentRec} (hr : HashRecs false lo hi recs)
    (hlo : lo ≤ h) : floorRec h recs ≠ none := by
  obtain ⟨r, hmem, hcpos⟩ := hr.first rfl
  intro hnone
  have := floorRec_eq_none.mp hnone r hmem
  omega

theorem HashKids.recs {P : Bool → Nat → Nat → Node → Prop} {f : Node → List ExtentRec}
    (hP : ∀ left lo hi k, P left lo hi k → HashRecs left lo hi (f k)) : ∀ {rs ks left r rs'},
      rs = r :: rs' → HashKids P hi left rs ks → HashRecs left r.eCpos hi (ks.flatMap f)
  | [r], [k], left, _, _, rfl, h => by
    simpa using hP _ _ _ _ h.2
  | r :: r' :: rs, k :: ks, left, _, _, rfl, h => by
    obtain ⟨-, hk, hrest⟩ := h
    have hk := hP _ _ _ _ hk
    have hrest := HashKids.recs hP rfl hrest
    refine ⟨?_, fun hl => ?_⟩
    · rw [flatMap_cons, spaced_append]
      exact ⟨_, hk.spaced, hrest.spaced⟩
    · obtain ⟨x, hx, hc⟩ := hk.first hl
      exact ⟨x, by simp [hx], hc⟩

theorem HashTree.recs : ∀ {d left lo hi el ks},
    HashTree d left lo hi el ks → HashRecs left lo hi (treeRecs d el ks)
  | 0, left, lo, hi, el, ks, h => by
    obtain ⟨-, -, -, -, -, hsp, hst, hne⟩ := h
    refine ⟨hsp, fun hl => ?_⟩
    cases hrecs : el.nonempty with
    | nil => exact absurd hrecs (hne hl)
    | cons r rs => exact ⟨r, by simp [treeRecs, hrecs], (hst r rs hrecs).2 hl⟩
  | d + 1, left, lo, hi, el, ks, h => by
    obtain ⟨-, -, hst, hkids⟩ := h
    cases hlive : el.live with
    | nil =>
      rw [hlive] at hkids
      cases ks <;> cases hkids
    | cons r rs =>
      have hr := hkids.recs (fun _ _ _ _ hk => HashTree.recs hk) hlive
      obtain ⟨hle, heq⟩ := hst r rs hlive
      refine ⟨hr.spaced.weaken hle (le_refl _), fun hl => ?_⟩
      rw [← heq hl]
      exact hr.first hl

/-! ### Looking up a hash -/

/-- The record an interior list leads on with. -/
def hashIndex (h : Nat) (rs : List ExtentRec) : Nat :=
  rs.dropLast.findIdx fun r =>
    decide (r.eCpos ≤ h) && decide (h < addW 32 r.eCpos r.eIntClusters)

theorem HashKids.lt {P : Bool → Nat → Nat → Node → Prop} :
    ∀ {rs ks left r rs'}, rs = r :: rs' → HashKids P hi left rs ks → r.eCpos < 4294967296
  | [_], [_], _, _, _, rfl, h => h.1
  | r :: r' :: rs, k :: ks, _, _, _, rfl, h => by
    have := HashKids.lt rfl h.2.2
    have := h.1
    omega

theorem HashKids.follow {P : Bool → Nat → Nat → Node → Prop} {f : Node → List ExtentRec}
    (hP : ∀ left lo hi k, P left lo hi k → HashRecs left lo hi (f k)) (h : Nat) :
    ∀ {rs ks left}, HashKids P hi left rs ks →
      ∃ r k left' hi', rs[hashIndex h rs]? = some r ∧ ks[hashIndex h rs]? = some k ∧
        P left' r.eCpos hi' k ∧ floorRec h (ks.flatMap f) = floorRec h (f k)
  | [r], [k], left, hk => ⟨r, k, left, hi, rfl, rfl, hk.2, by simp⟩
  | r :: r' :: rs, k :: ks, left, hk => by
    have hrecs := hP _ _ _ _ hk.2.1
    have hrest := HashKids.recs hP rfl hk.2.2
    have hsum : addW 32 r.eCpos r.eIntClusters = r'.eCpos := by
      have := HashKids.lt rfl hk.2.2
      rw [addW_32_eq (by rw [hk.1]; exact this), hk.1]
    rw [flatMap_cons, floorRec_append]
    by_cases hin : r.eCpos ≤ h ∧ h < r'.eCpos
    · -- the hash lies before the next record
      have hidx : hashIndex h (r :: r' :: rs) = 0 := by
        simp [hashIndex, findIdx_cons, hsum, hin.1, hin.2]
      have hnone : floorRec h (ks.flatMap f) = none := by
        rw [floorRec_eq_none]
        intro x hx
        have := (hrest.bounds x hx).1
        omega
      rw [hidx, hnone]
      exact ⟨r, k, left, r'.eCpos, rfl, rfl, hk.2.1, rfl⟩
    · obtain ⟨x, y, left', hi', hx, hy, hPy, hfl⟩ := HashKids.follow hP h hk.2.2
      have hidx : hashIndex h (r :: r' :: rs) = hashIndex h (r' :: rs) + 1 := by
        have hcond : (decide (r.eCpos ≤ h) && decide (h < r'.eCpos)) = false := by
          simpa using hin
        simp [hashIndex, findIdx_cons, hsum, hcond]
      rw [hidx]
      refine ⟨x, y, left', hi', hx, hy, hPy, ?_⟩
      rw [← hfl]
      -- what is left out on the left is behind the floor, or all lies after the hash
      by_cases hge : r'.eCpos ≤ h
      · have hsome := hrest.floor_some hge
        cases hf : floorRec h (ks.flatMap f) with
        | none => exact absurd hf hsome
        | some z => rfl
      · have hk0 : floorRec h (f k) = none := by
          rw [floorRec_eq_none]
          intro x hx
          have := (hrecs.bounds x hx).1
          omega
        rw [hk0]
        exact Option.or_none

theorem HashTree.depth : ∀ {d left lo hi el ks}, HashTree d left lo hi el ks → el.lTreeDepth = d
  | 0, _, _, _, _, _, h => h.1
  | _ + 1, _, _, _, _, _, h => h.1

theorem HashTree.le_count : ∀ {d left lo hi el ks}, HashTree d left lo hi el ks →
    el.lNextFreeRec ≤ el.lCount
  | 0, _, _, _, _, _, h => h.2.1
  | _ + 1, _, _, _, _, _, h => h.2.1

theorem followIndex_hash {d : Nat} (hd : el.lTreeDepth = d + 1)
    (hle : el.lNextFreeRec ≤ el.lCount) : followIndex el h = hashIndex h el.live := by
  have hdl : el.live.dropLast = el.lRecs.take (el.lNextFreeRec - 1) := by
    rw [dropLast_eq_take, ExtentList.live_length hle, ExtentList.live, take_take]
    congr 1
    omega
  simp only [followIndex, hashIndex, hdl, hd, recClusters_succ]

def pathList (el : ExtentList) (path : List ExtentBlock) : ExtentList :=
  (path.getLast?.map ExtentBlock.hList).getD el

variable (fs) in
/-- **`ocfs2_find_path` in an index tree** ends in a leaf that has the floor of the tree. -/
theorem HashTree.findPath : ∀ {d n lo hi h : Nat} {left : Bool} {el : ExtentList} {ks : List Node},
    HashTree d left lo hi el ks → readKids s.dev.ebs d el = some ks →
    (∀ b ∈ treeBlocks d ks, outOfRange fs b = false) → d ≤ n →
    ∃ path left' lo' hi', findPathLoop fs n el h s = some (.ok path, s) ∧ path.length = d ∧
      HashTree 0 left' lo' hi' (pathList el path) [] ∧
      floorRec h (treeRecs d el ks) = floorRec h (pathList el path).nonempty
  | 0, n, lo, hi, h, left, el, ks, ht, _, _, _ => by
    refine ⟨[], left, lo, hi, ?_, rfl, ?_, rfl⟩
    · cases n <;> simp [findPathLoop, ht.depth]
    · obtain rfl : ks = [] := ht.2.2.1
      exact ht
  | d + 1, 0, _, _, _, _, _, _, _, _, _, hn => by omega
  | d + 1, n + 1, lo, hi, h, left, el, ks, ht, hread, hrange, hn => by
    obtain ⟨r, k, left', hi', hr, hk, hkid, hfl⟩ := ht.2.2.2.follow
      (f := fun k => treeRecs d k.eb.hList k.kids) (fun _ _ _ _ hk => HashTree.recs hk) h
    have hidx : followIndex el h = hashIndex h el.live := followIndex_hash ht.depth ht.le_count
    have hne : el.lNextFreeRec ≠ 0 := by
      intro h0
      simp [ExtentList.live, h0] at hr
    have hrec : el.recAt (followIndex el h) = r := ExtentList.recAt_live (hidx ▸ hr)
    have hkmem : k ∈ ks := mem_of_getElem? hk
    have hlead : Leads s.dev.ebs d r k := by
      obtain ⟨hr', hr⟩ := List.getElem?_eq_some_iff.mp hr
      obtain ⟨hk', hk⟩ := List.getElem?_eq_some_iff.mp hk
      have := (forall₂_iff_get.mp (readKids_succ.mp hread)).2 _ hr' hk'
      simpa [hr, hk] using this
    have hb := hrange r.eBlkno (mem_treeBlocks_succ.mpr ⟨k, hkmem, .inl hlead.blkno.symm⟩)
    have hblk : r.eBlkno ≠ 0 := ne_zero_of_inRange hb
    have hcount : ¬ k.eb.hList.lCount < k.eb.hList.lNextFreeRec := not_lt.mpr hkid.le_count
    obtain ⟨path, l, lo₁, hi₁, hrun, hlen, hleaf, hfloor⟩ :=
        HashTree.findPath (h := h) hkid hlead.kids
      (fun b hb' => hrange b (mem_treeBlocks_succ.mpr ⟨k, hkmem, .inr hb'⟩))
      (Nat.le_of_succ_le_succ hn)
    have hlist : pathList el (k.eb :: path) = pathList k.eb.hList path := by
      cases path with
      | nil => rfl
      | cons b bs =>
        simp only [pathList, getLast?_cons_cons,
          getLast?_eq_some_getLast (cons_ne_nil b bs), Option.map_some, Option.getD_some]
    refine ⟨k.eb :: path, l, lo₁, hi₁, ?_, by simp [hlen], hlist ▸ hleaf, ?_⟩
    · simp only [findPathLoop, ht.depth, Nat.succ_ne_zero, if_false, hne, hrec, hblk,
        bind_ok (readExtentBlock_ok hb hlead.eb hkid.le_count), hcount,
        bind_ok hrun, pure_run]
    · rw [hlist, ← hfloor, ← hfl]
      rfl

/-- **`ocfs2_tree_find_leaf` in an index tree** with extent blocks. -/
theorem HashTree.findLeaf {d : Nat} {left : Bool} {ks : List Node}
    (ht : HashTree (d + 1) left lo hi el ks) (hread : readKids s.dev.ebs (d + 1) el = some ks)
    (hrange : ∀ b ∈ treeBlocks (d + 1) ks, outOfRange fs b = false) (hd : d + 1 < maxPathDepth) :
    ∃ eb left' lo' hi', treeFindLeaf fs el h s = some (.ok eb, s) ∧
      HashTree 0 left' lo' hi' eb.hList [] ∧
      floorRec h (treeRecs (d + 1) el ks) = floorRec h eb.hList.nonempty := by
  obtain ⟨path, left', lo', hi', hrun, hlen, hleaf, hfloor⟩ := ht.findPath fs (h := h)
    hread hrange (n := maxPathDepth - 1) (by omega)
  have hdep := ht.depth
  have hlast : path[el.lTreeDepth - 1]? = path.getLast? := by
    rw [getLast?_eq_getElem?, hlen, hdep]
  obtain ⟨eb, heb⟩ : ∃ eb, path.getLast? = some eb := by
    cases hp : path.getLast? with
    | none =>
      rw [getLast?_eq_none_iff.mp hp] at hlen
      cases hlen
    | some eb => exact ⟨eb, rfl⟩
  have hlist : pathList el path = eb.hList := by simp [pathList, heb]
  rw [hlist] at hleaf hfloor
  refine ⟨eb, left', lo', hi', ?_, hleaf, hfloor⟩
  unfold treeFindLeaf newPath Ocfs2Tools.findPath
  rw [bind_ok (check_ok (by simp [hdep]) s), bind_ok (check_ok (by simp [hdep]; omega) s),
    bind_ok hrun, hlast, heb]
  rfl

/-- The empty record a leaf may start with is found only where no other one is. -/
theorem HashTree.floor_live {left : Bool} (ht : HashTree 0 left lo hi el []) :
    floorRec h el.live = (floorRec h el.nonempty).or
      (if el.live = el.nonempty then none else some ExtentRec.zero) := by
  obtain ⟨-, -, -, hlive, -⟩ := ht
  by_cases heq : el.live = el.nonempty
  · rw [if_pos heq, heq, Option.or_none]
  · rw [if_neg heq, hlive.resolve_left heq, floorRec, reverse_cons, find?_append]
    rfl

end Ocfs2Tools
