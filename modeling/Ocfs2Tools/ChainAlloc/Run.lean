import Ocfs2Tools.ChainAlloc.Disk

/-!
# Runs of a chain allocator

The regions that `ocfs2_load_chain_allocator` creates lay the groups out, so the invariant
holds of an allocator that was just loaded from consistent groups, and every call keeps it.
A range that is freed over the end of a region breaks it: the whole range is cleared in the
buffer of one region.
-/

namespace Ocfs2Tools.ChainAlloc

open List Prog Bitops

variable {fs : Filesys} {firstGroup bpc ag stop : Nat}

/-! ### Loading -/

/-- Regions of one group, one after the other. -/
def TilesFrom (ag : Nat) : Nat → List Region → Nat → Prop
  | off, [], stop => off = stop
  | off, r :: rs, stop => r.bitOffset = off ∧ r.ag = ag ∧ 0 < r.brValidBits ∧
      TilesFrom ag (off + r.brValidBits) rs stop

/-- Every record of a discontiguous group has clusters. -/
def GroupDesc.NoEmptyRec (gd : GroupDesc) : Prop := ∀ rec ∈ gd.bgList, 0 < rec.eLeafClusters

theorem createRegions_tiles {gd : GroupDesc} (hbpc : 0 < bpc) (hrecs : gd.NoEmptyRec) (fuel)
    (totalBits : Int) (off rs) (hzero : (off = 0 → totalBits = gd.bgBits))
    (h : createRegions fs firstGroup bpc gd ag fuel totalBits off = some rs) :
    ∃ stop : Nat, (stop : Int) = off + totalBits ∧ TilesFrom ag off rs stop := by
  induction fuel generalizing totalBits off rs with
  | zero => cases h
  | succ fuel ih =>
    rw [createRegions] at h
    split at h
    · cases h
      exact ⟨off, by omega, rfl⟩
    · cases hnext : getNextRegion fs firstGroup bpc gd off with
      | none =>
        rw [hnext] at h
        cases h
      | some p =>
        obtain ⟨startBit, regionBits⟩ := p
        rw [hnext] at h
        obtain ⟨rest, hrest, rfl⟩ := Option.map_eq_some_iff.mp h
        -- a region of a group that has bits left is not empty
        have hpos : 0 < regionBits := by
          unfold getNextRegion at hnext
          split at hnext
          · split at hnext
            · cases hnext
            · obtain ⟨_, rfl⟩ := Prod.mk.inj (Option.some.inj hnext)
              omega
          · split at hnext
            · cases hnext
            · rename_i rec hrec
              obtain ⟨_, rfl⟩ := Prod.mk.inj (Option.some.inj hnext)
              exact Nat.mul_pos (hrecs rec (mem_of_find?_eq_some hrec)) hbpc
        obtain ⟨stop, hstop, htiles⟩ := ih _ _ rest (by omega) hrest
        refine ⟨stop, by omega, rfl, rfl, hpos, htiles⟩

theorem TilesFrom.mem {rs off} (h : TilesFrom ag off rs stop) :
    off ≤ stop ∧ ∀ r ∈ rs, r.ag = ag ∧ 0 < r.brValidBits ∧ off ≤ r.bitOffset ∧ r.bitOffset +
      r.brValidBits ≤ stop := by
  induction rs generalizing off with
  | nil => exact ⟨le_of_eq h, nofun⟩
  | cons r rs ih =>
    obtain ⟨hoff, hag, hpos, hrest⟩ := h
    obtain ⟨hle, hmem⟩ := ih hrest
    refine ⟨by omega, forall_mem_cons.mpr ⟨⟨hag, hpos, by omega, by omega⟩, fun r' hr' => ?_⟩⟩
    obtain ⟨h1, h2, h3, h4⟩ := hmem r' hr'
    exact ⟨h1, h2, by omega, h4⟩

theorem TilesFrom.cover {p : Nat} {rs off} (h : TilesFrom ag off rs stop) (hlo : off ≤ p)
    (hhi : p < stop) : ∃ r ∈ rs, r.bitOffset ≤ p ∧ p < r.bitOffset + r.brValidBits := by
  induction rs generalizing off hhi with
  | nil =>
    have : off = stop := h
    omega
  | cons r rs ih =>
    obtain ⟨hoff, _, _, hrest⟩ := h
    by_cases hp : p < off + r.brValidBits
    · exact ⟨r, mem_cons_self, by omega, by omega⟩
    · obtain ⟨r', hr', hin⟩ := ih hrest (by omega) hhi
      exact ⟨r', mem_cons_of_mem _ hr', hin⟩

/-- Of two regions of one group the first in the list is in front. -/
def InFront (r r' : Region) : Prop := r.ag = r'.ag → r.bitOffset + r.brValidBits ≤ r'.bitOffset

theorem TilesFrom.pairwise {rs off} (h : TilesFrom ag off rs stop) : rs.Pairwise InFront := by
  induction rs generalizing off with
  | nil => exact List.Pairwise.nil
  | cons r rs ih =>
    obtain ⟨hoff, _, _, hrest⟩ := h
    refine List.Pairwise.cons (fun r' hr' _ => ?_) (ih hrest)
    have := (hrest.mem.2 r' hr').2.2.1
    omega

theorem loadRegions_spec {gd : Nat → GroupDesc} (hbpc : 0 < bpc) {n rs}
    (hrecs : (∀ g, g < n → (gd g).NoEmptyRec)) (h : loadRegions fs firstGroup bpc gd n = some rs) :
    rs.Pairwise InFront ∧ (∀ r ∈ rs, r.ag < n ∧ 0 < r.brValidBits ∧ r.bitOffset + r.brValidBits ≤
      (gd r.ag).bgBits) ∧ ∀ g, g < n → ∀ p, p < (gd g).bgBits → ∃ r ∈ rs, r.ag = g ∧ r.bitOffset ≤ p
      ∧ p < r.bitOffset + r.brValidBits := by
  induction n generalizing rs with
  | zero =>
    cases h
    exact ⟨.nil, nofun, nofun⟩
  | succ n ih =>
    obtain ⟨rs₁, hrs₁, h⟩ := Option.bind_eq_some_iff.mp h
    obtain ⟨group, hgroup, h⟩ := Option.bind_eq_some_iff.mp h
    cases h
    obtain ⟨hpair, hmem, hcover⟩ := ih (fun g hg => hrecs g (by omega)) hrs₁
    obtain ⟨stop, hstop, htiles⟩ := createRegions_tiles hbpc (hrecs n (Nat.lt_succ_self n)) _ _ _ _
      (fun _ => rfl) hgroup
    have hbits : stop = (gd n).bgBits := by omega
    subst hbits
    have hnew := htiles.mem.2
    refine ⟨?_, ?_, ?_⟩
    · rw [pairwise_append]
      refine ⟨hpair, htiles.pairwise, fun r hr r' hr' hag => ?_⟩
      -- regions of different groups
      have h1 := (hmem r hr).1
      have h2 := (hnew r' hr').1
      omega
    · refine forall_mem_append.mpr ⟨fun r hr => ?_, fun r hr => ?_⟩
      · exact ⟨Nat.lt_succ_of_lt (hmem r hr).1, (hmem r hr).2⟩
      · obtain ⟨rfl, h2, h3, h4⟩ := hnew r hr
        exact ⟨Nat.lt_succ_self _, h2, h4⟩
    · intro g hg p hp
      by_cases hgn : g = n
      · subst hgn
        obtain ⟨r, hr, hin⟩ := htiles.cover (Nat.zero_le p) hp
        exact ⟨r, mem_append_right _ hr, (hnew r hr).1, hin⟩
      · obtain ⟨r, hr, hin⟩ := hcover g (by omega) p hp
        exact ⟨r, mem_append_left _ hr, hin⟩

/-- An allocator loaded from groups that are consistent: their counts are those of their
    bitmaps, the chains and the inode have the sums, and no bit belongs to two groups. -/
structure Loaded (fs : Filesys) (bpc : Nat) (env : Env) (m n : Nat) (gd : Nat → GroupDesc)
    (s : St) : Prop where
  bpc_pos : 0 < bpc
  regions : ∃ rs, loadRegions fs env.sFirstClusterGroup bpc gd n = some rs ∧ rs.length = m ∧
    ∀ i, i < m → rs[i]? = some (env.region i)
  mem_tree : ∀ i, i ∈ env.tree.toList ↔ i < m
  noEmptyRec : ∀ g, g < n → (gd g).NoEmptyRec
  bits_lt : ∀ g, g < n → (gd g).bgBits < 2 ^ 16
  bitmap_le : ∀ g, g < n → (gd g).bgBits ≤ 8 * (gd g).bgBitmap.length
  sum_lt : ∑ g ∈ Finset.range n, (gd g).bgBits < 2 ^ 32
  disjoint : ∀ i j, i < m → j < m → ∀ b,
    (env.region i).brStartBit ≤ b → b < (env.region i).brStartBit + (env.region i).brValidBits →
    (env.region j).brStartBit ≤ b → b < (env.region j).brStartBit + (env.region j).brValidBits →
    i = j
  below : ∀ i, i < m → (env.region i).brStartBit + (env.region i).brValidBits ≤ env.bTotalBits
  total_lt : env.bTotalBits < 2 ^ 48
  brBitmap : ∀ i, i < m → s.brBitmap i = loadBitmap (env.region i) (gd (env.region i).ag)
  crAg : s.crAg = gd
  disk : s.disk = gd
  clean : ∀ i, s.crDirty i = false
  cbDirty : s.cbDirty = false
  diskInode : s.diskInode = s.inode
  free : ∀ g, g < n → (gd g).bgFreeBitsCount + (gd g).setCount = (gd g).bgBits
  cFree : ∀ c, s.inode.cFree c =
    ∑ g ∈ Finset.range n, if (gd g).bgChain = c then (gd g).bgFreeBitsCount else 0
  cTotal : ∀ c, s.inode.cTotal c =
    ∑ g ∈ Finset.range n, if (gd g).bgChain = c then (gd g).bgBits else 0
  used : s.inode.iUsed = ∑ g ∈ Finset.range n, (gd g).setCount

def loadedBits (env : Env) (m : Nat) (gd : Nat → GroupDesc) (b : Nat) : Bool :=
  (List.range m).any fun i =>
    decide ((env.region i).brStartBit ≤ b ∧
      b < (env.region i).brStartBit + (env.region i).brValidBits) &&
    testBit ((env.region i).bitOffset + (b - (env.region i).brStartBit))
      (gd (env.region i).ag).bgBitmap

section Loaded

variable {fs : Filesys} {bpc : Nat} {env : Env} {m n : Nat} {gd : Nat → GroupDesc} {s : St}

theorem Loaded.layout (h : Loaded fs bpc env m n gd s) : Layout env m n gd := by
  obtain ⟨rs, hload, hlen, hget⟩ := h.regions
  obtain ⟨hpair, hmem, hcover⟩ := loadRegions_spec h.bpc_pos h.noEmptyRec hload
  have hregion : ∀ i, i < m → env.region i ∈ rs := fun i hi => mem_of_getElem? (hget i hi)
  have hfront : ∀ i j, i < j → j < m → InFront (env.region i) (env.region j) := by
    intro i j hij hj
    obtain ⟨hil, hi⟩ := List.getElem?_eq_some_iff.mp (hget i (by omega))
    obtain ⟨hjl, hj'⟩ := List.getElem?_eq_some_iff.mp (hget j hj)
    rw [← hi, ← hj']
    exact pairwise_iff_getElem.mp hpair i j hil hjl hij
  refine ⟨h.mem_tree, fun i hi => (hmem _ (hregion i hi)).2.1, fun i hi =>
    (hmem _ (hregion i hi)).1,
    fun i hi => (hmem _ (hregion i hi)).2.2, ?_, ?_, h.disjoint, h.below, h.total_lt, h.bitmap_le,
    h.bits_lt, h.sum_lt⟩
  · intro g hg p hp
    obtain ⟨r, hr, hin⟩ := hcover g hg p hp
    obtain ⟨i, hi⟩ := mem_iff_getElem?.mp hr
    have him : i < m := hlen ▸ (List.getElem?_eq_some_iff.mp hi).1
    obtain rfl := Option.some.inj (hi.symm.trans (hget i him))
    exact ⟨i, him, hin⟩
  · intro i j hi hj hag p h1 h2 h3 h4
    rcases Nat.lt_trichotomy i j with hlt | heq | hgt
    · have := hfront i j hlt hj hag
      omega
    · exact heq
    · have := hfront j i hgt hi hag.symm
      omega

theorem Loaded.loadedBits_eq (h : Loaded fs bpc env m n gd s) {i j : Nat} (hi : i < m)
    (hj : j < (env.region i).brValidBits) : loadedBits env m gd ((env.region i).brStartBit + j) =
      testBit ((env.region i).bitOffset + j) (gd (env.region i).ag).bgBitmap := by
  unfold loadedBits
  rw [Bool.eq_iff_iff, any_eq_true]
  constructor
  · rintro ⟨l, hl, hset⟩
    rw [Bool.and_eq_true, decide_eq_true_eq] at hset
    obtain rfl : l = i := h.disjoint l i (mem_range.mp hl) hi _ hset.1.1 hset.1.2 (by omega)
      (by omega)
    simpa using hset.2
  · intro hset
    refine ⟨i, mem_range.mpr hi, ?_⟩
    rw [Bool.and_eq_true, decide_eq_true_eq]
    exact ⟨⟨by omega, by omega⟩, by simpa using hset⟩

theorem testBit_take_drop (bm : List UInt8) (a k x : Nat) (hx : x < 8 * k) :
    testBit x ((bm.drop a).take k) = testBit (8 * a + x) bm := by
  rw [testBit_eq, testBit_eq, getD_eq_getElem?_getD, getD_eq_getElem?_getD,
    getElem?_take_of_lt (by omega), getElem?_drop,
    show (8 * a + x) / 8 = a + x / 8 by omega, show (8 * a + x) % 8 = x % 8 by omega]

theorem Loaded.inv (h : Loaded fs bpc env m n gd s) : Inv env m n gd s (loadedBits env m gd) := by
  have lay := h.layout
  have hcount : ∀ g, g < n → env.allocated m gd (loadedBits env m gd) g = (gd g).setCount := by
    intro g hg
    refine Finset.sum_congr rfl fun p hp => ?_
    obtain ⟨i, j, hi, hj, rfl, rfl, hno⟩ := lay.bit_of_group hg (Finset.mem_range.mp hp)
    rw [hno, h.loadedBits_eq hi hj]
  constructor
  · intro i hi
    have hin := lay.inside i hi
    have hlen := lay.bitmap_le _ (lay.ag_lt i hi)
    have hbytes : (env.region i).brBytes =
        ((env.region i).brValidBits + (env.region i).bitOffset % 8 + 7) / 8 := rfl
    rw [h.brBitmap i hi, loadBitmap, length_take, length_drop]
    omega
  · intro i hi j hj
    have hbytes : (env.region i).brBytes =
        ((env.region i).brValidBits + (env.region i).bitOffset % 8 + 7) / 8 := rfl
    have hstart : (env.region i).brBitmapStart = (env.region i).bitOffset % 8 := rfl
    rw [h.brBitmap i hi, loadBitmap, testBit_take_drop _ _ _ _ (by omega), h.loadedBits_eq hi hj,
      show 8 * ((env.region i).bitOffset / 8) + ((env.region i).brBitmapStart + j) =
        (env.region i).bitOffset + j by omega]
  · intro g _
    rw [h.crAg]
    exact ⟨rfl, rfl, rfl⟩
  · intro g hg
    rw [h.crAg, hcount g hg]
    exact h.free g hg
  · intro c
    rw [h.crAg]
    exact h.cFree c
  · exact h.cTotal
  · rw [h.used]
    exact Finset.sum_congr rfl fun g hg => (hcount g (Finset.mem_range.mp hg)).symm
  · intro i hi _ j hj
    rw [h.crAg, h.loadedBits_eq hi hj]
  · intro g _ _
    rw [h.crAg, h.disk]
  · intro i _ hdirty
    rw [h.clean i] at hdirty
    cases hdirty
  · intro _
    exact h.diskInode

end Loaded

/-! ### Runs -/

/-- The calls; a write comes with the group writes and the inode write that fail, and what
    they leave on the device. -/
inductive Call where
  | alloc
  | free (bitno : Nat)
  | allocRange (minLen len : Nat)
  | freeRange (len startBit : Nat)
  | write (fault : Nat → Option GroupDesc) (inodeFault : Option ChainInode)

/-- What a call returns: a bit, a range of bits or nothing. -/
inductive Ret where
  | bit (bitno : Nat)
  | range (firstBit bitsFound : Nat)
  | done

def Call.run (env : Env) : Call → C Ret
  | .alloc => do
    let (_, _, bitno) ← chainAlloc env
    pure (.bit bitno)
  | .free bitno => do
    chainFree env bitno
    pure .done
  | .allocRange minLen len => do
    let (firstBit, bitsFound) ← chainAllocRange env minLen len
    pure (.range firstBit bitsFound)
  | .freeRange len startBit => do
    chainFreeRange env len startBit
    pure .done
  | .write fault inodeFault => do
    writeChainAllocator env fault inodeFault
    pure .done

/-- The bits that are allocated after a call; one that returns an error changes none. -/
def Call.after (A : Nat → Bool) : Call → Except ChainError Ret → Nat → Bool
  | .alloc, .ok (.bit bitno) => Function.update A bitno true
  | .free bitno, .ok _ => Function.update A bitno false
  | .allocRange _ _, .ok (.range firstBit bitsFound) => fillRange A firstBit bitsFound true
  | .freeRange len startBit, .ok _ => fillRange A startBit len false
  | _, _ => A

/-- After a write that returned without an error the device has the bits `A`. -/
def Call.Checked (env : Env) (m n : Nat) (gd : Nat → GroupDesc) (s : St) (A : Nat → Bool) :
    Call → Except ChainError Ret → Prop
  | .write _ _, .ok _ => OnDisk env m n gd s A
  | _, _ => True

/-- Every call of a run returns, and after each write the device is right. -/
def RunsWell (env : Env) (m n : Nat) (gd : Nat → GroupDesc) : St → (Nat → Bool) → List Call → Prop
  | _, _, [] => True
  | s, A, call :: calls => ∃ r s', call.run env s = some (r, s') ∧
      call.Checked env m n gd s' (call.after A r) r ∧
      RunsWell env m n gd s' (call.after A r) calls

/-- A range that is freed meets one region only, and when a range is allocated no region has
    a bit set behind its end. -/
def Call.Fits (env : Env) (m : Nat) (s : St) : Call → Prop
  | .allocRange _ _ => ∀ i, i < m → TailClear (s.brBitmap i) (env.region i).brTotalBits
  | .freeRange len startBit => InOneRegion env m len startBit
  | _ => True

/-- All calls of the run fit, each in the state it is made in. -/
def AllFit (env : Env) (m : Nat) : St → List Call → Prop
  | _, [] => True
  | s, call :: calls => call.Fits env m s ∧
      ∀ r s', call.run env s = some (r, s') → AllFit env m s' calls

section Run

variable {env : Env} {m n : Nat} {gd : Nat → GroupDesc} (lay : Layout env m n gd)
include lay

theorem Call.step {s : St} {A : Nat → Bool} (inv : Inv env m n gd s A) (call : Call)
    (hfits : call.Fits env m s) :
    ∃ r s', call.run env s = some (r, s') ∧ Inv env m n gd s' (call.after A r) ∧
      call.Checked env m n gd s' (call.after A r) r := by
  cases call with
  | alloc =>
    rcases chainAlloc_run lay inv with ⟨e, s', hrun, hinv⟩ | ⟨blkno, bit, bitno, s', hrun, _, hinv⟩
    · exact ⟨_, s', bind_error hrun _, hinv, trivial⟩
    · exact ⟨_, s', bind_ok hrun _, hinv, trivial⟩
  | free bitno =>
    rcases chainFree_run lay inv bitno with ⟨e, s', hrun, hinv⟩ | ⟨s', hrun, hinv⟩
    · exact ⟨_, s', bind_error hrun _, hinv, trivial⟩
    · exact ⟨_, s', bind_ok hrun _, hinv, trivial⟩
  | allocRange minLen len =>
    rcases chainAllocRange_run lay inv minLen len hfits with
      ⟨e, hrun⟩ | ⟨firstBit, bitsFound, s', hrun, hinv⟩
    · exact ⟨_, s, bind_error hrun _, inv, trivial⟩
    · exact ⟨_, s', bind_ok hrun _, hinv, trivial⟩
  | freeRange len startBit =>
    rcases chainFreeRange_run lay inv hfits with ⟨e, hrun⟩ | ⟨s', hrun, hinv⟩
    · exact ⟨_, s, bind_error hrun _, inv, trivial⟩
    · exact ⟨_, s', bind_ok hrun _, hinv, trivial⟩
  | write fault inodeFault =>
    obtain ⟨r, s', hrun, hinv, hdisk⟩ := writeChainAllocator_run lay inv fault inodeFault
    cases r with
    | error e => exact ⟨_, s', bind_error hrun _, hinv, trivial⟩
    | ok u => exact ⟨_, s', bind_ok hrun _, hinv, hdisk rfl⟩

theorem Inv.runsWell (calls) {s A} (inv : Inv env m n gd s A) (hfit : AllFit env m s calls) :
    RunsWell env m n gd s A calls := by
  induction calls generalizing s A with
  | nil => trivial
  | cons call calls ih =>
    obtain ⟨r, s', hrun, hinv, hchecked⟩ := Call.step lay inv call hfit.1
    exact ⟨r, s', hrun, hchecked, ih hinv (hfit.2 r s' hrun)⟩

end Run

/-- After every write of a run from a loaded allocator, the device has just the allocated bits
    set and all their counts, if the calls of the run fit. -/
theorem runsWell_of_allFit {fs : Filesys} {bpc : Nat} {env : Env} {m n : Nat} {gd : Nat → GroupDesc}
    {s : St} (h : Loaded fs bpc env m n gd s) (calls : List Call) (hfit : AllFit env m s calls) :
    RunsWell env m n gd s (loadedBits env m gd) calls :=
  Inv.runsWell h.layout calls h.inv hfit

/-! ### A discontiguous group of two extents -/

def pairFs : Filesys := .largeBlocks 1000

/-- Eight bits that are all allocated, four in each of two extents. -/
def pairGroup : GroupDesc where
  bgBits := 8
  bgFreeBitsCount := 0
  bgChain := 0
  bgBlkno := 100
  bgBitmap := [255]
  bgList := [⟨0, 4, 0, 0, 100⟩, ⟨4, 4, 0, 0, 104⟩]

def pairEnv : Env where
  bTotalBits := 1000
  sFirstClusterGroup := 1
  region := fun i => if i = 0 then ⟨100, 4, 0, 0⟩ else ⟨104, 4, 4, 0⟩
  tree := .node .leaf 0 (.node .leaf 1 .leaf)

def pairInode : ChainInode := ⟨fun _ => 0, fun c => if c = 0 then 8 else 0, 8⟩

def pairSt : St where
  brBitmap := fun _ => [255]
  brSetBits := fun _ => 4
  crDirty := fun _ => false
  crAg := fun _ => pairGroup
  inode := pairInode
  cbDirty := false
  disk := fun _ => pairGroup
  diskInode := pairInode

theorem pairSt_loaded : Loaded pairFs 1 pairEnv 2 1 (fun _ => pairGroup) pairSt where
  bpc_pos := by decide
  regions := ⟨[⟨100, 4, 0, 0⟩, ⟨104, 4, 4, 0⟩], by decide, rfl, by decide⟩
  mem_tree := by
    intro i
    show i ∈ [0, 1] ↔ i < 2
    rw [mem_pair]
    omega
  noEmptyRec := by
    unfold GroupDesc.NoEmptyRec
    decide
  bits_lt := fun g _ => by decide
  bitmap_le := fun g _ => by decide
  sum_lt := by decide
  disjoint := by
    intro i j hi hj b h1 h2 h3 h4
    obtain rfl | rfl : i = 0 ∨ i = 1 := by omega
    all_goals
      obtain rfl | rfl : j = 0 ∨ j = 1 := by omega
      all_goals
        simp only [pairEnv, if_true, Nat.one_ne_zero, if_false] at h1 h2 h3 h4
        omega
  below := by decide
  total_lt := by decide
  brBitmap := by decide
  crAg := rfl
  disk := rfl
  clean := fun _ => rfl
  cbDirty := rfl
  diskInode := rfl
  free := fun g _ => by decide
  cFree := fun _ => (Finset.sum_eq_zero fun g _ => ite_self 0).symm
  cTotal := by
    simp [pairSt, pairInode, pairGroup, eq_comm]
  used := by decide

/-- Four bits are freed, two in each extent. The first region takes them all for its own,
    and its group has four bits free and six set on the device. -/
theorem pairSt_freeRange_written : (((Call.freeRange 4 102).run pairEnv pairSt).bind fun p =>
      ((Call.write (fun _ => none) none).run pairEnv p.2).map fun q =>
        (q.1.isOk, (q.2.disk 0).bgFreeBitsCount, (q.2.disk 0).setCount, (q.2.disk 0).bgBits)) =
      some (true, 4, 6, 8) := by
  decide +kernel

theorem pairSt_not_runsWell : Loaded pairFs 1 pairEnv 2 1 (fun _ => pairGroup) pairSt ∧
    ¬ RunsWell pairEnv 2 1 (fun _ => pairGroup) pairSt
      (loadedBits pairEnv 2 fun _ => pairGroup)
        [.freeRange 4 102, .write (fun _ => none) none] := by
  refine ⟨pairSt_loaded, ?_⟩
  rintro ⟨r, s, hrun, _, r', s', hwrite, hchecked, _⟩
  have hend := pairSt_freeRange_written
  rw [hrun, Option.bind_some, hwrite, Option.map_some, Option.some.injEq, Prod.mk.injEq,
    Prod.mk.injEq, Prod.mk.injEq] at hend
  obtain ⟨hok, hfree, hset, hbits⟩ := hend
  cases r' with
  | error e => cases hok
  | ok ret =>
    have hsum := OnDisk.free hchecked 0 (by decide)
    rw [hfree, hset, hbits] at hsum
    cases hsum

/-- Ranges and bits that are freed in one extent each. -/
theorem pairSt_runsWell : RunsWell pairEnv 2 1 (fun _ => pairGroup) pairSt
    (loadedBits pairEnv 2 fun _ => pairGroup)
    [.freeRange 2 102, .free 104, .write (fun _ => none) none] := by
  refine runsWell_of_allFit pairSt_loaded _ ⟨?_, fun _ _ _ => ⟨trivial, fun _ _ _ =>
    ⟨trivial, fun _ _ _ => trivial⟩⟩⟩
  intro i hi hlo hhi
  obtain rfl | rfl : i = 0 ∨ i = 1 := by omega
  · exact ⟨by decide, by decide⟩
  · exact absurd hlo (by decide)

end Ocfs2Tools.ChainAlloc
