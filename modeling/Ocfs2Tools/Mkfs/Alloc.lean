import Ocfs2Tools.Bitops

/-!
# Clusters for a new volume

`alloc_from_bitmap` of `mkfs.c` takes a run of clear bits from the cluster bitmap that is
being built. It goes by the free counts: the first group that has enough clear bits is
searched for a run, and no other group is looked at.
-/

namespace Ocfs2Tools.Mkfs

open List Bitops

/-- `AllocGroup`: the fields of its descriptor. -/
structure AllocGroup where
  bgBlkno : Nat
  bgBits : Nat
  bgFreeBitsCount : Nat
  bgChain : Nat
  bgBitmap : List UInt8

/-- The groups that `groups[i]` links, and its `chain_free`. -/
structure AllocChain where
  chainFree : Nat
  groups : List AllocGroup

/-- `usedBits` is that of `bm_record`. -/
structure AllocBitmap where
  chains : List AllocChain
  unitBits : Nat
  usedBits : Nat

structure State where
  firstClusterGroupBlkno : Nat
  blocksizeBits : Nat
  clusterSizeBits : Nat

/-- The loop of `find_clear_bits`; `none` is `(uint32_t)-1`. -/
def findClearBitsLoop (buf : List UInt8) (size numBits : Nat) : Nat → Nat → Nat → Nat → Option Nat
  | 0, _, _, _ => none
  | fuel + 1, off, count, firstZero =>
    if numBits ≤ size - off + count then
      let nextZero := findNextBitClear buf size off
      if size ≤ nextZero then none
      else
        let (firstZero, off, count) :=
          if nextZero ≠ off then (nextZero, nextZero + 1, 0)
          else (if count = 0 then nextZero else firstZero, off + 1, count)
        if count + 1 = numBits then some firstZero
        else findClearBitsLoop buf size numBits fuel off (count + 1) firstZero
    else none

def findClearBits (buf : List UInt8) (size numBits offset : Nat) : Option Nat :=
  (findClearBitsLoop buf size numBits (size + 1) offset 0 0).filter (· ≤ size)

/-- The groups as the loops over the chains and along each chain come to them, with the
    chain and the place there. -/
def visits (chains : List AllocChain) : List (Nat × Nat × AllocGroup) :=
  chains.zipIdx.flatMap fun (c, i) => c.groups.zipIdx.map fun (gd, j) => (i, j, gd)

def setBits : Nat → Nat → List UInt8 → List UInt8
  | 0, _, buf => buf
  | numBits + 1, startBit, buf => setBits numBits (startBit + 1) (setBit startBit buf)

/-- Where bit `startBit` of a group is on the volume, in bytes. -/
def startOf (s : State) (bitmap : AllocBitmap) (gd : AllocGroup) (startBit : Nat) : Nat :=
  (if gd.bgBlkno = s.firstClusterGroupBlkno then startBit
    else startBit + (gd.bgBlkno <<< s.blocksizeBits) >>> s.clusterSizeBits) <<< bitmap.unitBits

/-- The bitmap, `start` and `num`; `none` is the exit of the program. -/
def allocFromBitmap (s : State) (numBits : Nat) (bitmap : AllocBitmap) :
    Option (AllocBitmap × Nat × Nat) := do
  let (i, j, gd) ← (visits bitmap.chains).find? (numBits ≤ ·.2.2.bgFreeBitsCount)
  let startBit ← findClearBits gd.bgBitmap gd.bgBits numBits 0
  let gd' := { gd with
    bgFreeBitsCount := gd.bgFreeBitsCount - numBits
    bgBitmap := setBits numBits startBit gd.bgBitmap }
  let chains := bitmap.chains.modify i fun c => { c with groups := c.groups.set j gd' }
  let chains := chains.modify gd.bgChain fun c => { c with chainFree := c.chainFree - numBits }
  some ({ bitmap with chains, usedBits := bitmap.usedBits + numBits },
    startOf s bitmap gd startBit, numBits <<< bitmap.unitBits)

/-! ### The search in a group -/

variable {buf : List UInt8} {size n k off count first fuel i j : Nat} {g : AllocGroup}
  {c : AllocChain} {bm : AllocBitmap} {s : State}

/-- The bits from `k` on, `n` of them, are clear. -/
def Run (buf : List UInt8) (size n k : Nat) : Prop := k + n ≤ size ∧ Clear buf k (k + n)

/-- What a search for `n` clear bits may answer. -/
def Finds (buf : List UInt8) (size n : Nat) : Option Nat → Prop
  | some k => Run buf size n k
  | none => ∀ k, ¬ Run buf size n k

-- the bits before `off` are clear, `count` of them, and no run starts before those
theorem findClearBitsLoop_finds (hsize : size ≤ 8 * buf.length) (hoff : off ≤ size)
    (hfuel : size < off + fuel) (hn : count < n) (hc : count ≤ off)
    (hfirst : count = 0 ∨ first = off - count) (hclear : Clear buf (off - count) off)
    (hno : ∀ k, Run buf size n k → off - count ≤ k) :
    Finds buf size n (findClearBitsLoop buf size n fuel off count first) := by
  induction fuel generalizing off count first with
  | zero => omega
  | succ fuel ih =>
    rw [findClearBitsLoop]
    obtain ⟨hskip, hfound⟩ := findNextBitClear_spec hsize hoff
    generalize findNextBitClear buf size off = z at hskip hfound
    split
    · by_cases hz : size ≤ z
      · rw [if_pos hz]
        intro k hk
        -- the last bit of a run would be at `off` or behind it
        have hlast := hno k hk
        have hle := hk.1
        have hset := hskip (k + n - 1) (by omega) (by omega) (by omega)
        rw [hk.2 (k + n - 1) (by omega) (by omega)] at hset
        cases hset
      rw [if_neg hz]
      have hzc := (hfound (not_le.mp hz)).2
      by_cases hne : z = off
      · subst hne
        have hclear' : Clear buf (z - count) (z + 1) := by
          intro x h1 h2
          rcases Nat.lt_succ_iff_lt_or_eq.mp h2 with h | rfl
          · exact hclear x h1 h
          · exact hzc
        have hstart : (if count = 0 then z else first) = z - count := by
          split <;> omega
        simp only [ne_eq, not_true_eq_false, if_false, hstart]
        split
        · exact ⟨by omega, fun x h1 h2 => hclear' x h1 (by omega)⟩
        · rw [show z - count = z + 1 - (count + 1) by omega] at hclear' hno ⊢
          exact ih (by omega) (by omega) (by omega) (by omega) (.inr rfl) hclear' hno
      · simp only [ne_eq, hne, not_false_eq_true, if_true]
        have hone : Clear buf z (z + 1) := fun x h1 h2 => by
          obtain rfl : x = z := by omega
          exact hzc
        split
        · exact ⟨by omega, fun x h1 h2 => hone x h1 (by omega)⟩
        · refine ih (by omega) (by omega) (by omega) (by omega) (.inr rfl) hone fun k hk => ?_
          by_contra hlt
          have hlow := hno k hk
          have hset := hskip (max k off) (by omega) (by omega) (by omega)
          rw [hk.2 (max k off) (by omega) (by omega)] at hset
          cases hset
    · intro k hk
      have hlow := hno k hk
      have hle := hk.1
      omega

theorem findClearBits_finds (hsize : size ≤ 8 * buf.length) (hn : 0 < n) :
    Finds buf size n (findClearBits buf size n 0) := by
  have h : Finds buf size n (findClearBitsLoop buf size n (size + 1) 0 0 0) :=
    findClearBitsLoop_finds hsize (Nat.zero_le _) (by omega) hn (le_refl 0) (.inl rfl)
      (fun _ h1 h2 => by omega) fun k _ => by omega
  rw [findClearBits]
  cases hr : findClearBitsLoop buf size n (size + 1) 0 0 0 with
  | none => rwa [hr] at h
  | some k =>
    rw [hr] at h
    rw [Option.filter_some_pos (by simpa using (Nat.le_add_right k n).trans h.1)]
    exact h

/-! ### The counts -/

/-- Each descriptor counts the clear bits of its group, `chain_free` those of the chain. -/
structure Counted (bm : AllocBitmap) : Prop where
  group : ∀ v ∈ visits bm.chains, v.2.2.bgBits ≤ 8 * v.2.2.bgBitmap.length ∧ v.2.2.bgChain = v.1 ∧
    v.2.2.bgFreeBitsCount = (range v.2.2.bgBits).countP (!testBit · v.2.2.bgBitmap)
  free : ∀ c ∈ bm.chains, c.chainFree = (c.groups.map (·.bgFreeBitsCount)).sum

def AllocBitmap.groups (bm : AllocBitmap) : List AllocGroup := bm.chains.flatMap (·.groups)

def AllocGroup.HasRun (g : AllocGroup) (n : Nat) : Prop := ∃ k, Run g.bgBitmap g.bgBits n k

theorem mem_visits {cs : List AllocChain} :
    (i, j, g) ∈ visits cs ↔ ∃ c, cs[i]? = some c ∧ c.groups[j]? = some g := by
  simp only [visits, mem_flatMap, mem_map, Prod.exists, mk_mem_zipIdx_iff_getElem?, Prod.mk.injEq]
  constructor
  · rintro ⟨c, _, hc, _, _, hg, rfl, rfl, rfl⟩
    exact ⟨c, hc, hg⟩
  · rintro ⟨c, hc, hg⟩
    exact ⟨c, i, hc, g, j, hg, rfl, rfl, rfl⟩

theorem groups_eq (bm : AllocBitmap) : bm.groups = (visits bm.chains).map (·.2.2) := by
  rw [AllocBitmap.groups, visits, map_flatMap]
  conv_lhs => rw [← zipIdx_map_fst 0 bm.chains, flatMap_map]
  congr 1
  funext v
  rw [map_map]
  exact (zipIdx_map_fst 0 v.1.groups).symm

theorem testBit_setBits (hle : k + n ≤ 8 * buf.length) (x : Nat) :
    testBit x (setBits n k buf) = (testBit x buf || decide (k ≤ x ∧ x < k + n)) := by
  induction n generalizing k buf with
  | zero => simp [setBits, show ¬ (k ≤ x ∧ x < k) by omega]
  | succ n ih =>
    rw [setBits, ih (by rw [length_setBit]; omega), testBit_setBit (by omega), Bool.or_assoc,
      ← Bool.decide_or]
    congr 2
    rw [eq_iff_iff]
    omega

/-! ### The allocation -/

/-- A run of `n` bits of one group has been allocated: its bits are set, the counts of the
    group, of its chain and of the bitmap have changed by `n`, and nothing else has. -/
def Allocates (s : State) (n : Nat) (bm : AllocBitmap) (r : AllocBitmap × Nat × Nat) : Prop :=
  ∃ i j k c g buf, bm.chains[i]? = some c ∧ c.groups[j]? = some g ∧
    Run g.bgBitmap g.bgBits n k ∧ n ≤ g.bgFreeBitsCount ∧ n ≤ c.chainFree ∧
    (∀ x, testBit x buf = (testBit x g.bgBitmap || decide (k ≤ x ∧ x < k + n))) ∧
    r = ({ bm with
      chains := bm.chains.set i ⟨c.chainFree - n, c.groups.set j { g with
        bgFreeBitsCount := g.bgFreeBitsCount - n, bgBitmap := buf }⟩
      usedBits := bm.usedBits + n }, startOf s bm g k, n <<< bm.unitBits)

theorem allocates_of_mem (h : Counted bm) (hn : 0 < n) {r} (hr : allocFromBitmap s n bm = some r) :
    Allocates s n bm r := by
  simp only [allocFromBitmap, Option.bind_eq_bind, Option.bind_eq_some_iff] at hr
  obtain ⟨⟨i, j, g⟩, hfind, k, hk, hr⟩ := hr
  have hmem := mem_of_find?_eq_some hfind
  obtain ⟨c, hc, hg⟩ := mem_visits.mp hmem
  obtain ⟨hsize, hchain, -⟩ := h.group _ hmem
  have hfit : n ≤ g.bgFreeBitsCount := by simpa using find?_some hfind
  have hrun := findClearBits_finds hsize hn
  rw [hk] at hrun
  have hfree : n ≤ c.chainFree := by
    rw [h.free c (mem_of_getElem? hc)]
    exact hfit.trans (single_le_sum (by simp) _ (mem_map_of_mem (mem_of_getElem? hg)))
  refine ⟨i, j, k, c, g, _, hc, hg, hrun, hfit, hfree,
    testBit_setBits (hrun.1.trans hsize), ?_⟩
  obtain ⟨hi, rfl⟩ := List.getElem?_eq_some_iff.mp hc
  rw [← Option.some.inj hr, hchain]
  congr 2
  rw [modify_eq_set_getElem?, modify_eq_set_getElem?]
  simp [hi]

theorem allocFromBitmap_isSome (h : Counted bm) (hn : 0 < n) :
    (allocFromBitmap s n bm).isSome ↔
      ∃ g ∈ bm.groups.find? (n ≤ ·.bgFreeBitsCount), g.HasRun n := by
  rw [groups_eq, find?_map]
  cases hv : (visits bm.chains).find? (n ≤ ·.2.2.bgFreeBitsCount) with
  | none => simp [allocFromBitmap, hv]
  | some v =>
    have hrun := findClearBits_finds (h.group v (mem_of_find?_eq_some hv)).1 hn
    simp only [allocFromBitmap, hv, Function.comp_def, Option.bind_eq_bind, Option.bind_some,
      Option.map_some, Option.mem_some_iff, exists_eq_left']
    cases hk : findClearBits v.2.2.bgBitmap v.2.2.bgBits n 0 with
    | none =>
      rw [hk] at hrun
      exact iff_of_false nofun fun ⟨k, hk⟩ => hrun k hk
    | some k =>
      rw [hk] at hrun
      exact iff_of_true rfl ⟨k, hrun⟩

/-- **`alloc_from_bitmap` does what it should exactly if** the first group with enough clear
    bits has a run of them, or no group has one. -/
theorem allocFromBitmap_correct_iff (s : State) (n : Nat) (bm : AllocBitmap) (h : Counted bm)
    (hn : 1 ≤ n) :
    (((allocFromBitmap s n bm).isSome ↔ ∃ g ∈ bm.groups, g.HasRun n) ∧
      ∀ r ∈ allocFromBitmap s n bm, Allocates s n bm r) ↔
    ((∃ g ∈ bm.groups, g.HasRun n) →
      ∃ g ∈ bm.groups.find? (n ≤ ·.bgFreeBitsCount), g.HasRun n) := by
  rw [allocFromBitmap_isSome h hn]
  constructor
  · exact fun hall => hall.1.mpr
  · intro hfirst
    refine ⟨⟨?_, hfirst⟩, fun r hr => allocates_of_mem h hn hr⟩
    rintro ⟨g, hg, hrun⟩
    exact ⟨g, mem_of_find?_eq_some hg, hrun⟩

/-- Two groups of eight clusters: the first has every second one free, the other all. -/
def scattered : AllocBitmap :=
  ⟨[⟨4, [⟨1, 8, 4, 0, [0x55]⟩]⟩, ⟨8, [⟨8, 8, 8, 1, [0]⟩]⟩], 12, 4⟩

/-- Two clusters that follow each other are free in the second group. -/
theorem allocFromBitmap_scattered : Counted scattered ∧
    allocFromBitmap ⟨1, 12, 12⟩ 2 scattered = none ∧ ∃ g ∈ scattered.groups, g.HasRun 2 := by
  refine ⟨⟨by decide, by decide⟩, by decide, ⟨8, 8, 8, 1, [0]⟩, .tail _ (.head _), 0, by decide, ?_⟩
  have hclear : ∀ k, k < 2 → testBit k [0] = false := by decide
  exact fun k _ hk => hclear k hk

/-- A chain of a group with two single clusters and one with runs of two and three, and a chain
    with an empty group. -/
def fragmented : AllocBitmap :=
  ⟨[⟨7, [⟨1, 8, 2, 0, [0xEE]⟩, ⟨9, 8, 5, 0, [0xC4]⟩]⟩, ⟨8, [⟨17, 8, 8, 1, [0]⟩]⟩], 12, 9⟩

/-- The second group is the first one with three clear bits, and has them in a run. -/
theorem allocFromBitmap_fragmented :
    (((allocFromBitmap ⟨1, 12, 12⟩ 3 fragmented).isSome ↔ ∃ g ∈ fragmented.groups, g.HasRun 3) ∧
      ∀ r ∈ allocFromBitmap ⟨1, 12, 12⟩ 3 fragmented, Allocates ⟨1, 12, 12⟩ 3 fragmented r) ∧
    (allocFromBitmap ⟨1, 12, 12⟩ 3 fragmented).map (·.2) = some (49152, 12288) := by
  have hcounted : Counted fragmented := ⟨by decide, by decide⟩
  have hclear : ∀ k, k < 6 → 3 ≤ k → testBit k [0xC4] = false := by decide
  refine ⟨(allocFromBitmap_correct_iff ⟨1, 12, 12⟩ 3 fragmented hcounted (by decide)).mpr
    fun _ => ⟨⟨9, 8, 5, 0, [0xC4]⟩, rfl, 3, by decide, fun k h1 h2 => hclear k h2 h1⟩, by decide⟩

end Ocfs2Tools.Mkfs
