import Ocfs2Tools.Xattr.Stop
import Ocfs2Tools.ExtentTree.HashTree

/-!
# Every extended attribute once

On an ordered tree `ocfs2_xattr_get_rec` finds the last record that starts at or before a
hash, so the lookups of the iterator meet the extents from right to left. They end when the hash to
look up next is 0: a record at
hash 1 hides the one at hash 0.
-/

namespace Ocfs2Tools.Xattr

open List Prog ExtentRec

variable {κ : Type} {fs : Filesys} {xd : XattrDev} {s : St}
  {h lo hi : Nat} {el : ExtentList} {r : ExtentRec}

/-! ### Looking up a hash -/

/-- What a lookup answers: the record it looks for, or `OCFS2_ET_INVALID_ARGUMENT`. -/
def floorResult (r : Option ExtentRec) : Except Errcode ExtentRec :=
  match r with
  | some r => .ok r
  | none => .error .invalidArgument

theorem leafRec_floor {left : Bool} (ht : HashTree 0 left lo hi el []) :
    leafRec el h s = some (floorResult (floorRec h el.nonempty), s) := by
  -- the empty record in front is found only where nothing else is, and it is refused
  have hfind : el.live.reverse.find? (fun r => decide (r.eCpos ≤ h)) = _ := ht.floor_live
  rw [leafRec, hfind]
  cases hf : floorRec h el.nonempty with
  | none =>
    rw [Option.none_or]
    split <;> rfl
  | some r =>
    obtain ⟨-, -, -, -, hblk, -⟩ := ht
    have hmem : r ∈ el.nonempty := by simpa using mem_of_find?_eq_some hf
    simp only [Option.some_or, if_neg (hblk r hmem)]
    rfl

/-- **`ocfs2_xattr_get_rec` finds the floor of a hash.** -/
theorem xattrGetRec_floor {d lo hi h : Nat} {left : Bool} {ks : List Node}
    (ht : HashTree d left lo hi el ks) (hread : readKids s.dev.ebs d el = some ks)
    (hrange : ∀ b ∈ treeBlocks d ks, outOfRange fs b = false) (hd : d < maxPathDepth) :
    xattrGetRec fs (.indexed el) h s = some (floorResult (floorRec h (treeRecs d el ks)), s) := by
  have hdep := ht.depth
  simp only [xattrGetRec]
  cases d with
  | zero =>
    obtain rfl : ks = [] := ht.2.2.1
    rw [if_pos hdep]
    exact leafRec_floor ht
  | succ d =>
    obtain ⟨eb, left', lo', hi', hfind, hleaf, hfloor⟩ := ht.findLeaf (h := h) hread hrange hd
    rw [if_neg (by omega), bind_ok hfind, if_pos hleaf.depth, hfloor]
    exact leafRec_floor hleaf

/-! ### What an inode stores -/

variable (fs xd)

/-- The blocks of bucket `i` of an extent start here. -/
def bucketBlkno (r : ExtentRec) (i : Nat) : Nat := r.eBlkno + i * blocksPerBucket fs

def bucketEntries (blkno : Nat) : List XattrCall :=
  match xd.bucket blkno with
  | .ok xh => headerCalls fs blkno true xh
  | .error _ => []

/-- The first bucket of an extent tells how many there are. -/
def numBuckets (r : ExtentRec) : Nat :=
  match xd.bucket r.eBlkno with
  | .ok xh => xh.xhNumBuckets
  | .error _ => 0

def extentEntries (r : ExtentRec) : List XattrCall :=
  (List.range (numBuckets xd r)).flatMap fun i => bucketEntries fs xd (bucketBlkno fs r i)

def storedEntries (s : St) (di : XattrInode) : List XattrCall :=
  (if di.inlineXattrFl then headerCalls fs di.iBlkno false di.ibody else []) ++
    if di.iXattrLoc = 0 then []
    else
      match xd.block di.iXattrLoc with
      | .ok (.plain xh) => headerCalls fs di.iXattrLoc false xh
      | .ok (.indexed el) => (diskRecs s.dev.ebs el).flatMap (extentEntries fs xd)
      | .error _ => []

/-- An extent of buckets: there is at least one, they fit the extent and can be read. -/
structure ExtentOk (r : ExtentRec) : Prop where
  fits : r.eLeafClusters < 65536
  pos : 0 < numBuckets xd r
  room : numBuckets xd r ≤ r.eLeafClusters * bucketsPerCluster fs
  read : ∀ i < numBuckets xd r, ∃ xh, xd.bucket (bucketBlkno fs r i) = .ok xh

/-- A consistent index tree below the list `el`. -/
structure IndexOk (s : St) (el : ExtentList) (ks : List Node) :
    Prop where
  depth : el.lTreeDepth < maxPathDepth
  read : readKids s.dev.ebs el.lTreeDepth el = some ks
  range : ∀ b ∈ treeBlocks el.lTreeDepth ks, outOfRange fs b = false
  tree : HashTree el.lTreeDepth true 0 (uint32Max + 1) el ks
  extents : ∀ r ∈ treeRecs el.lTreeDepth el ks, ExtentOk fs xd r

/-- An inode with consistent extended attributes. -/
structure XattrOk (s : St) (di : XattrInode) : Prop where
  supported : xd.supported = true
  hasXattr : di.hasXattrFl = true
  range : di.iXattrLoc ≠ 0 → outOfRange fs di.iXattrLoc = false
  block : di.iXattrLoc ≠ 0 → (∃ xh, xd.block di.iXattrLoc = .ok (.plain xh)) ∨
    ∃ el ks, xd.block di.iXattrLoc = .ok (.indexed el) ∧ IndexOk fs xd s el ks

/-! ### What the plan holds -/

variable {fs xd}

def Plan.calls (plan : Plan) : List XattrCall := plan.groups.flatMap Group.calls

theorem Plan.calls_andThen {a : Plan} (b : Plan) (h : a.ending = none) :
    (a.andThen b).calls = a.calls ++ b.calls ∧ (a.andThen b).ending = b.ending := by
  simp [Plan.andThen, h, Plan.calls]

theorem bucketPlan_calls : ∀ n blkno,
    (∀ i < n, ∃ xh, xd.bucket (blkno + i * blocksPerBucket fs) = .ok xh) →
    (bucketPlan fs xd n blkno).ending = none ∧ (bucketPlan fs xd n blkno).calls =
      (List.range n).flatMap fun i => bucketEntries fs xd (blkno + i * blocksPerBucket fs)
  | 0, _, _ => ⟨rfl, rfl⟩
  | n + 1, blkno, hread => by
    obtain ⟨xh, hxh⟩ := hread 0 (Nat.succ_pos n)
    rw [Nat.zero_mul, Nat.add_zero] at hxh
    obtain ⟨hend, hcalls⟩ := bucketPlan_calls n (blkno + blocksPerBucket fs) (fun i hi => by
      have := hread (i + 1) (by omega)
      rwa [Nat.succ_mul, Nat.add_comm (i * _), ← Nat.add_assoc] at this)
    simp only [bucketPlan, hxh]
    refine ⟨hend, ?_⟩
    rw [(Plan.calls_andThen _ rfl).1, hcalls, range_succ_eq_map, flatMap_cons, flatMap_map]
    congr 1
    · simp [Plan.calls, bucketEntries, hxh]
    · apply flatMap_congr
      intro i _
      rw [Nat.succ_mul, Nat.add_comm (i * _), ← Nat.add_assoc]

theorem bucketsPerCluster_le (fs : Filesys) : bucketsPerCluster fs ≤ 256 := by
  have : fs.fsClustersize ≤ 2 ^ 20 := Nat.pow_le_pow_right (by decide) fs.clustersize_le
  unfold bucketsPerCluster xattrBucketSize
  omega

theorem ExtentOk.plan (h : ExtentOk fs xd r) :
    (extentPlan fs xd r).ending = none ∧ (extentPlan fs xd r).calls = extentEntries fs xd r := by
  have hpos := h.pos
  obtain ⟨xh, hxh⟩ := h.read 0 h.pos
  simp only [bucketBlkno, Nat.zero_mul, Nat.add_zero] at hxh
  have hnum : numBuckets xd r = xh.xhNumBuckets := by rw [numBuckets, hxh]
  -- the first count is not cut to 0
  have hne : ¬ (r.eLeafClusters * bucketsPerCluster fs) % 2 ^ 32 = 0 := by
    have hle : r.eLeafClusters * bucketsPerCluster fs ≤ 65535 * 256 :=
      Nat.mul_le_mul (by have := h.fits; omega) (bucketsPerCluster_le fs)
    have hroom := h.room
    omega
  obtain ⟨n, hn⟩ : ∃ n, numBuckets xd r = n + 1 := ⟨numBuckets xd r - 1, by omega⟩
  have hpred : xh.xhNumBuckets - 1 = n := by omega
  have hplan : extentPlan fs xd r = bucketPlan fs xd (numBuckets xd r) r.eBlkno := by
    rw [hn]
    simp only [extentPlan, if_neg hne, bucketPlan, hxh, hpred]
  rw [hplan]
  exact bucketPlan_calls _ _ h.read

/-- The records the lookups reach: one at hash 1 hides the one at hash 0. -/
def reached (rs : List ExtentRec) : List ExtentRec :=
  if ∃ r ∈ rs, r.eCpos = 1 then rs.filter fun r => decide (r.eCpos ≠ 0) else rs

theorem spaced_concat {as : List ExtentRec} (h : Spaced eCpos (fun _ => 1) lo (as ++ [r]) hi) :
    Spaced eCpos (fun _ => 1) lo as hi ∧ ∀ a ∈ as, a.eCpos < r.eCpos := by
  obtain ⟨mid, h1, h2⟩ := spaced_append.mp h
  have hle : mid ≤ r.eCpos := h2.1
  refine ⟨h1.weaken (le_refl _) h2.le, fun a ha => ?_⟩
  have := (h1.mem_bounds a ha).2.2
  omega

/-- The lookups from a hash on reach the records up to it, from right to left. -/
theorem indexPlan_calls {xb : XattrBlock} {recs : List ExtentRec}
    (hget : ∀ h, xattrGetRec fs xb h s = some (floorResult (floorRec h recs), s))
    (hext : ∀ r ∈ recs, ExtentOk fs xd r) : ∀ as bs n h lo hi,
    recs = as ++ bs → Spaced eCpos (fun _ => 1) lo as hi → (∀ a ∈ as, a.eCpos ≤ h) →
    (∀ b ∈ bs, h < b.eCpos) → 0 < h → h < n → (indexPlan fs xd s xb n h).ending ≠ some .aborted ∧
      (indexPlan fs xd s xb n h).calls = (reached as).reverse.flatMap (extentEntries fs xd) := by
  intro as
  induction as using List.reverseRecOn with
  | nil =>
    intro bs n h lo hi hrecs _ _ hbs hpos hlt
    obtain ⟨n, rfl⟩ : ∃ m, n = m + 1 := ⟨n - 1, by omega⟩
    have hnone : floorRec h recs = none := floorRec_eq_none.mpr (by simpa [hrecs] using hbs)
    simp only [indexPlan, if_neg (Nat.pos_iff_ne_zero.mp hpos), hget, hnone, floorResult]
    exact ⟨by simp, rfl⟩
  | append_singleton as r ih =>
    intro bs n h lo hi hrecs hsp has hbs hpos hlt
    obtain ⟨n, rfl⟩ : ∃ m, n = m + 1 := ⟨n - 1, by omega⟩
    obtain ⟨hsp', hless⟩ := spaced_concat hsp
    have hrle : r.eCpos ≤ h := has r (by simp)
    have hfloor : floorRec h recs = some r := by
      rw [hrecs, floorRec_append, floorRec_eq_none.mpr hbs]
      simp [floorRec, hrle]
    obtain ⟨hend, hcalls⟩ := (hext r (by simp [hrecs])).plan
    simp only [indexPlan, if_neg (Nat.pos_iff_ne_zero.mp hpos), hget, hfloor, floorResult]
    obtain ⟨h1, h2⟩ := Plan.calls_andThen
      (if r.eCpos = 0 then ⟨[], none⟩ else indexPlan fs xd s xb n (r.eCpos - 1)) hend
    rw [h1, h2, hcalls]
    by_cases hz : r.eCpos = 0
    · -- nothing can start before hash 0
      obtain rfl : as = [] := eq_nil_iff_forall_not_mem.mpr fun a ha => by
        have := hless a ha
        omega
      simp [hz, reached, Plan.calls]
    by_cases hone : r.eCpos = 1
    · -- the next hash is 0, and the loop ends
      have hfilter : as.filter (fun r => decide (r.eCpos ≠ 0)) = [] := by
        rw [filter_eq_nil_iff]
        intro a ha
        have := hless a ha
        simp
        omega
      have hplan : indexPlan fs xd s xb n (r.eCpos - 1) = ⟨[], none⟩ := by
        obtain ⟨n, rfl⟩ : ∃ m, n = m + 1 := ⟨n - 1, by omega⟩
        simp [indexPlan, hone]
      have hreach : reached (as ++ [r]) = [r] := by
        rw [reached, if_pos ⟨r, by simp, hone⟩, filter_append, hfilter]
        simp [hz]
      rw [hplan, hreach]
      simp [Plan.calls]
    · obtain ⟨ih1, ih2⟩ := ih (r :: bs) n (r.eCpos - 1) lo hi (by simp [hrecs]) hsp'
        (fun a ha => by have := hless a ha; omega)
        (forall_mem_cons.mpr ⟨by omega, fun b hb => by have := hbs b hb; omega⟩) (by omega)
          (by omega)
      have hreach : reached (as ++ [r]) = reached as ++ [r] := by
        unfold reached
        have hex : (∃ x ∈ as ++ [r], x.eCpos = 1) ↔ ∃ x ∈ as, x.eCpos = 1 := by
          simp [or_and_right, exists_or, hone]
        by_cases hx : ∃ x ∈ as, x.eCpos = 1
        · rw [if_pos hx, if_pos (hex.mpr hx)]
          simp [hz]
        · rw [if_neg hx, if_neg (mt hex.mp hx)]
      rw [if_neg hz, ih2, hreach]
      exact ⟨ih1, by simp⟩

/-- The entries behind a record at hash 1. -/
def hiddenEntries (fs : Filesys) (xd : XattrDev) (rs : List ExtentRec) : List XattrCall :=
  if ∃ r ∈ rs, r.eCpos = 1 then
    (rs.filter fun r => !decide (r.eCpos ≠ 0)).flatMap (extentEntries fs xd)
  else []

theorem reached_perm (rs : List ExtentRec) : (rs.flatMap (extentEntries fs xd)).Perm
    ((reached rs).reverse.flatMap (extentEntries fs xd) ++ hiddenEntries fs xd rs) := by
  have hrev : ((reached rs).flatMap (extentEntries fs xd)).Perm
      ((reached rs).reverse.flatMap (extentEntries fs xd)) :=
    ((reverse_perm (reached rs)).symm).flatMap_right _
  refine List.Perm.trans ?_ (hrev.append_right _)
  unfold reached hiddenEntries
  split
  · rw [← flatMap_append]
    exact ((filter_append_perm _ rs).symm).flatMap_right _
  · rw [append_nil]

def indexRecs (xd : XattrDev) (s : St) (di : XattrInode) : List ExtentRec :=
  if di.iXattrLoc = 0 then []
  else
    match xd.block di.iXattrLoc with
    | .ok (.indexed el) => diskRecs s.dev.ebs el
    | _ => []

/-- The entries an iteration reaches, in the order of its calls. -/
def reachedEntries (fs : Filesys) (xd : XattrDev) (s : St) (di : XattrInode) : List XattrCall :=
  (if di.inlineXattrFl then headerCalls fs di.iBlkno false di.ibody else []) ++
    if di.iXattrLoc = 0 then []
    else
      match xd.block di.iXattrLoc with
      | .ok (.plain xh) => headerCalls fs di.iXattrLoc false xh
      | .ok (.indexed el) => (reached (diskRecs s.dev.ebs el)).reverse.flatMap (extentEntries fs xd)
      | .error _ => []

theorem storedEntries_perm (fs : Filesys) (xd : XattrDev) (s : St) (di : XattrInode) :
    (storedEntries fs xd s di).Perm
      (reachedEntries fs xd s di ++ hiddenEntries fs xd (indexRecs xd s di)) := by
  unfold storedEntries reachedEntries indexRecs
  rw [append_assoc]
  apply List.Perm.append_left
  by_cases h0 : di.iXattrLoc = 0
  · simp [h0, hiddenEntries]
  · simp only [if_neg h0]
    match xd.block di.iXattrLoc with
    | .ok (.plain xh) => simp [hiddenEntries]
    | .ok (.indexed el) => exact reached_perm _
    | .error e => simp [hiddenEntries]

theorem IndexOk.diskRecs {ks : List Node} (h : IndexOk fs xd s el ks) :
    diskRecs s.dev.ebs el = treeRecs el.lTreeDepth el ks := by
  rw [Ocfs2Tools.diskRecs, h.read]

theorem IndexOk.plan {ks : List Node} (h : IndexOk fs xd s el ks) :
    (indexPlan fs xd s (.indexed el) (uint32Max + 1) uint32Max).ending ≠ some .aborted ∧
      (indexPlan fs xd s (.indexed el) (uint32Max + 1) uint32Max).calls =
        (reached (treeRecs el.lTreeDepth el ks)).reverse.flatMap (extentEntries fs xd) := by
  have hrecs := h.tree.recs
  refine indexPlan_calls (fun _ => xattrGetRec_floor h.tree h.read h.range h.depth) h.extents _
    [] _ _ 0
    (uint32Max + 1) (by simp) hrecs.spaced (fun r hr => ?_) (by simp) (by decide) (by decide)
  have := (hrecs.bounds r hr).2
  omega

theorem XattrOk.plan {di : XattrInode} (h : XattrOk fs xd s di) :
    (xattrPlan fs xd s di).ending ≠ some .aborted ∧
      (xattrPlan fs xd s di).calls = reachedEntries fs xd s di := by
  have hsup : ¬ (xd.supported = false ∨ di.hasXattrFl = false) := by
    simp [h.supported, h.hasXattr]
  have hbody : (bodyPlan fs di).ending = none ∧ (bodyPlan fs di).calls =
      if di.inlineXattrFl then headerCalls fs di.iBlkno false di.ibody else [] := by
    unfold bodyPlan
    split <;> simp [Plan.calls]
  obtain ⟨h1, h2⟩ := Plan.calls_andThen (blockPlan fs xd s di) hbody.1
  rw [xattrPlan, if_neg hsup, h1, h2, hbody.2, reachedEntries, blockPlan]
  by_cases h0 : di.iXattrLoc = 0
  · simp [h0, Plan.calls]
  · simp only [if_neg h0, readXattrBlock, h.range h0, Bool.false_eq_true, if_false]
    rcases h.block h0 with ⟨xh, hxh⟩ | ⟨el, ks, hel, hok⟩
    · simp [hxh, Plan.calls]
    · simp only [hel]
      rw [hok.diskRecs]
      by_cases hn : el.lNextFreeRec = 0
      · have hlive : el.live = [] := by simp [ExtentList.live, hn]
        have hnil : treeRecs el.lTreeDepth el ks = [] := by
          cases hd : el.lTreeDepth with
          | zero => simp [treeRecs, ExtentList.nonempty, hlive]
          | succ d =>
            have htree := hok.tree
            rw [hd] at htree
            have hkids := htree.2.2.2
            rw [hlive] at hkids
            cases ks <;> cases hkids
        rw [if_pos hn, hnil]
        simp [Plan.calls, reached]
      · rw [if_neg hn, hok.plan.2]
        exact ⟨hok.plan.1, rfl⟩

/-! ### Callbacks that return 0 -/

def quiet (note : XattrCall → κ → κ) : XattrFunc κ := fun c p => (.nothing, note c p)

theorem runCalls_quiet (note : XattrCall → κ → κ) : ∀ cs p,
    runCalls (quiet note) cs p = (.nothing, cs.foldl (fun p c => note c p) p)
  | [], _ => rfl
  | c :: cs, p => runCalls_quiet note cs (note c p)

theorem runGroups_quiet (note : XattrCall → κ → κ) : ∀ gs p,
    runGroups (quiet note) gs p = (.nothing, (gs.flatMap Group.calls).foldl (fun p c => note c p) p)
  | [], _ => rfl
  | g :: gs, p => by
    rw [runGroups, runCalls_quiet, if_neg (by simp [XattrFlags.stops, XattrFlags.nothing]),
      runGroups_quiet note gs, flatMap_cons, foldl_append]

/-- With a callback that returns 0 the iteration makes the calls of `calls`, in this order,
    and returns `r`. -/
def Calls (fs : Filesys) (xd : XattrDev) (s : St) (di : XattrInode) (calls : List XattrCall)
    (r : Except Errcode Unit) : Prop :=
  ∀ (κ : Type) (note : XattrCall → κ → κ) (p : κ), xattrIterate fs xd (quiet note) di p s =
    some (.ok (r, calls.foldl (fun p c => note c p) p), s)

theorem XattrOk.calls {di : XattrInode} (h : XattrOk fs xd s di) :
    ∃ r, Calls fs xd s di (reachedEntries fs xd s di) r := by
  obtain ⟨hend, hcalls⟩ := h.plan
  have hrun : ∀ κ (note : XattrCall → κ → κ) p,
      xattrIterate fs xd (quiet note) di p s = (Ending.result (xattrPlan fs xd s di).ending
          ((reachedEntries fs xd s di).foldl (fun p c => note c p) p)).map fun r => (.ok r, s) := by
    intro κ note p
    rw [xattrIterate_eq, Plan.outcome, runGroups_quiet, ← hcalls]
    rfl
  rcases he : (xattrPlan fs xd s di).ending with _ | e | _
  · exact ⟨.ok (), fun κ note p => by rw [hrun, he]; rfl⟩
  · exact ⟨.error e, fun κ note p => by rw [hrun, he]; rfl⟩
  · exact absurd he hend

theorem Calls.unique {di : XattrInode} {as bs : List XattrCall} {r r' : Except Errcode Unit}
    (ha : Calls fs xd s di as r) (hb : Calls fs xd s di bs r') : as = bs := by
  have hfold : ∀ (cs log : List XattrCall), cs.foldl (fun p c => p ++ [c]) log = log ++ cs := by
    intro cs
    induction cs with
    | nil => simp
    | cons c cs ih => simp [ih]
  have h := (ha _ (fun c log => log ++ [c]) []).symm.trans (hb _ (fun c log => log ++ [c]) [])
  simp only [hfold, nil_append, Option.some.injEq, Prod.mk.injEq, Except.ok.injEq] at h
  exact h.1.2

/-- The callback is called once for each stored entry. -/
def CallsOnce (fs : Filesys) (xd : XattrDev) (s : St) (di : XattrInode) : Prop :=
  ∃ calls r, calls.Perm (storedEntries fs xd s di) ∧ Calls fs xd s di calls r

/-- **Every entry once**, unless a record at hash 1 hides entries at hash 0. -/
theorem xattrIterate_callsOnce_iff {di : XattrInode} (h : XattrOk fs xd s di) :
    CallsOnce fs xd s di ↔ ¬ ((∃ r ∈ indexRecs xd s di, r.eCpos = 1) ∧
        ∃ r ∈ indexRecs xd s di, r.eCpos = 0 ∧ extentEntries fs xd r ≠ []) := by
  have hperm := storedEntries_perm fs xd s di
  obtain ⟨r, hcalls⟩ := h.calls
  have hhidden : hiddenEntries fs xd (indexRecs xd s di) = [] ↔
      ¬ ((∃ r ∈ indexRecs xd s di, r.eCpos = 1) ∧
        ∃ r ∈ indexRecs xd s di, r.eCpos = 0 ∧ extentEntries fs xd r ≠ []) := by
    unfold hiddenEntries
    by_cases hone : ∃ r ∈ indexRecs xd s di, r.eCpos = 1
    · simp [hone, List.flatMap_eq_nil_iff]
    · simp [hone]
  rw [← hhidden]
  constructor
  · rintro ⟨calls, r', hp, hc⟩
    obtain rfl := hcalls.unique hc
    have hlen := (hp.trans hperm).length_eq
    rw [List.length_append] at hlen
    exact List.eq_nil_of_length_eq_zero (by omega)
  · intro hnil
    rw [hnil, List.append_nil] at hperm
    exact ⟨_, r, hperm.symm, hcalls⟩

def extentAt (cpos : Nat) : ExtentRec := ⟨cpos, 1, 0, 0, 80 + 8 * cpos⟩

/-- An index block with extents of one bucket that start at the given hashes. -/
def extentsAt (cposs : List Nat) : XattrDev where
  supported := true
  block _ := .ok (.indexed ⟨0, cposs.length, cposs.map extentAt⟩)
  bucket blkno := .ok ⟨1, [⟨blkno, 100, 4, 0, 8⟩]⟩

theorem extentsAt_ok {cposs : List Nat}
    (hsp : Spaced eCpos (fun _ => 1) 0 (cposs.map extentAt) (uint32Max + 1)) :
    XattrOk smallFs (extentsAt cposs) noEbsSt indexInode := by
  refine ⟨rfl, rfl, fun _ => by decide, fun _ => .inr ⟨_, [], rfl, ?_⟩⟩
  have hlive : (⟨0, cposs.length, cposs.map extentAt⟩ : ExtentList).live = cposs.map extentAt :=
    take_of_length_le (by simp)
  have hne : (⟨0, cposs.length, cposs.map extentAt⟩ : ExtentList).nonempty =
      cposs.map extentAt := by
    rw [ExtentList.nonempty, hlive]
    simp [isEmptyExtent, extentAt]
  refine ⟨show 0 < maxPathDepth by decide, rfl, by simp [treeBlocks], ?_, ?_⟩
  · refine ⟨rfl, by simp [ExtentList.lCount], rfl, .inl (hlive.trans hne.symm), ?_, ?_, ?_, by simp⟩
    · simp [hne, extentAt]
    · rw [hne]
      exact hsp
    · exact fun r rs _ => ⟨Nat.zero_le _, by simp⟩
  · intro r hr
    rw [treeRecs, hne] at hr
    obtain ⟨c, -, rfl⟩ := mem_map.mp hr
    exact ⟨show 1 < 65536 by decide, show 0 < 1 by decide,
      show 1 ≤ 1 * bucketsPerCluster smallFs by decide, fun i _ => ⟨_, rfl⟩⟩

/-- Extents at the hashes 0 and 2 are both reached. -/
theorem xattrIterate_callsOnce_zero_two : CallsOnce smallFs (extentsAt [0, 2]) noEbsSt indexInode :=
  (xattrIterate_callsOnce_iff (extentsAt_ok (by decide))).mpr (by decide)

/-- Of the extents at the hashes 0 and 1 only the second is reached. -/
theorem xattrIterate_hidden_entry : XattrOk smallFs (extentsAt [0, 1]) noEbsSt indexInode ∧
    (storedEntries smallFs (extentsAt [0, 1]) noEbsSt indexInode).length = 2 ∧
    ¬ CallsOnce smallFs (extentsAt [0, 1]) noEbsSt indexInode := by
  refine ⟨extentsAt_ok (by decide), by decide, ?_⟩
  rintro ⟨calls, r, hp, hc⟩
  have hone : Calls smallFs (extentsAt [0, 1]) noEbsSt indexInode
      [callFor smallFs 88 true 0 ⟨88, 100, 4, 0, 8⟩] (.ok ()) := fun κ note p => rfl
  rw [hc.unique hone] at hp
  exact absurd hp.length_eq (by decide)

end Ocfs2Tools.Xattr
