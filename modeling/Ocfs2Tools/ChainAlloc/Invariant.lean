import Ocfs2Tools.ChainAlloc.Write

/-!
# What holds of a chain allocator in memory

The bits that are allocated are a function of the bit number. The buffers of the regions
hold them, and the counts of the groups, of the chains and of the inode are theirs. A
region that is not dirty agrees with the bitmap of its group, a group without dirty
regions with the device, and the inode with the device if nothing is dirty.
-/

namespace Ocfs2Tools.ChainAlloc

open Function Bitops

variable {i j l x : Nat} {v : Bool}

/-! ### Sums of which one term changes -/

theorem sum_range_change {n a : Nat} (ha : a < n) {f f' : Nat → Nat} {d d' : Nat}
    (hat : f' a + d = f a + d') (hother : ∀ g, g < n → g ≠ a → f' g = f g) :
    ∑ g ∈ Finset.range n, f' g + d = ∑ g ∈ Finset.range n, f g + d' := by
  have hmem : a ∈ Finset.range n := Finset.mem_range.mpr ha
  have hrest : ∑ g ∈ (Finset.range n).erase a, f' g = ∑ g ∈ (Finset.range n).erase a, f g :=
    Finset.sum_congr rfl fun g hg =>
      hother g (Finset.mem_range.mp (Finset.mem_of_mem_erase hg)) (Finset.ne_of_mem_erase hg)
  rw [← Finset.add_sum_erase _ f' hmem, ← Finset.add_sum_erase _ f hmem]
  omega

/-! ### The layout of an allocator -/

/-- The allocator has the regions below `m` and the groups below `n`, which were loaded as
    `gd`. The regions of a group tile its bits, and all regions have different bits. -/
structure Layout (env : Env) (m n : Nat) (gd : Nat → GroupDesc) : Prop where
  mem_tree : ∀ i, i ∈ env.tree.toList ↔ i < m
  valid_pos : ∀ i, i < m → 0 < (env.region i).brValidBits
  ag_lt : ∀ i, i < m → (env.region i).ag < n
  inside : ∀ i, i < m →
    (env.region i).bitOffset + (env.region i).brValidBits ≤ (gd (env.region i).ag).bgBits
  cover : ∀ g, g < n → ∀ p, p < (gd g).bgBits → ∃ i, i < m ∧ (env.region i).ag = g ∧
    (env.region i).bitOffset ≤ p ∧ p < (env.region i).bitOffset + (env.region i).brValidBits
  apart : ∀ i j, i < m → j < m → (env.region i).ag = (env.region j).ag → ∀ p,
    (env.region i).bitOffset ≤ p → p < (env.region i).bitOffset + (env.region i).brValidBits →
    (env.region j).bitOffset ≤ p → p < (env.region j).bitOffset + (env.region j).brValidBits →
    i = j
  disjoint : ∀ i j, i < m → j < m → ∀ b,
    (env.region i).brStartBit ≤ b → b < (env.region i).brStartBit + (env.region i).brValidBits →
    (env.region j).brStartBit ≤ b → b < (env.region j).brStartBit + (env.region j).brValidBits →
    i = j
  below : ∀ i, i < m → (env.region i).brStartBit + (env.region i).brValidBits ≤ env.bTotalBits
  total_lt : env.bTotalBits < 2 ^ 48
  bitmap_le : ∀ g, g < n → (gd g).bgBits ≤ 8 * (gd g).bgBitmap.length
  bits_lt : ∀ g, g < n → (gd g).bgBits < 2 ^ 16
  sum_lt : ∑ g ∈ Finset.range n, (gd g).bgBits < 2 ^ 32

def Env.regionAt (env : Env) (m g p : Nat) : Option Nat :=
  (List.range m).find? fun i => decide ((env.region i).ag = g ∧ (env.region i).bitOffset ≤ p ∧
    p < (env.region i).bitOffset + (env.region i).brValidBits)

def Env.bitnoAt (env : Env) (m g p : Nat) : Nat :=
  match env.regionAt m g p with
  | some i => (env.region i).brStartBit + (p - (env.region i).bitOffset)
  | none => 0

def Env.allocated (env : Env) (m : Nat) (gd : Nat → GroupDesc) (A : Nat → Bool) (g : Nat) : Nat :=
  ∑ p ∈ Finset.range (gd g).bgBits, (A (env.bitnoAt m g p)).toNat

section Layout

variable {env : Env} {m n : Nat} {gd : Nat → GroupDesc} (lay : Layout env m n gd)
include lay

variable {g p : Nat}

theorem Layout.bitnoAt_region (hi : i < m) (hj : j < (env.region i).brValidBits) :
    env.bitnoAt m (env.region i).ag ((env.region i).bitOffset + j) =
      (env.region i).brStartBit + j := by
  have hfind : env.regionAt m (env.region i).ag ((env.region i).bitOffset + j) = some i := by
    unfold Env.regionAt
    cases hf : (List.range m).find? _ with
    | none =>
      have hno := List.find?_eq_none.mp hf i (List.mem_range.mpr hi)
      simp at hno
      omega
    | some k =>
      have hk := List.find?_some hf
      have hkm := List.mem_range.mp (List.mem_of_find?_eq_some hf)
      rw [decide_eq_true_eq] at hk
      rw [lay.apart i k hi hkm hk.1.symm _ (by omega) (by omega) hk.2.1 hk.2.2]
  unfold Env.bitnoAt
  rw [hfind]
  simp

theorem Layout.bit_of_group (hg : g < n) (hp : p < (gd g).bgBits) :
    ∃ i j, i < m ∧ j < (env.region i).brValidBits ∧ (env.region i).ag = g ∧
      p = (env.region i).bitOffset + j ∧ env.bitnoAt m g p = (env.region i).brStartBit + j := by
  obtain ⟨i, hi, hag, hle, hlt⟩ := lay.cover g hg p hp
  obtain ⟨j, rfl⟩ := Nat.exists_eq_add_of_le hle
  subst hag
  exact ⟨i, j, hi, by omega, rfl, rfl, lay.bitnoAt_region hi (by omega)⟩

theorem Layout.bit_ne (hl : l < m) (hi : i < m) (hne : l ≠ i) (hx : x < (env.region l).brValidBits)
    (hj : j < (env.region i).brValidBits) :
    (env.region l).brStartBit + x ≠ (env.region i).brStartBit + j := by
  intro heq
  exact hne (lay.disjoint l i hl hi ((env.region l).brStartBit + x) (by omega) (by omega)
    (by omega) (by omega))

theorem Layout.bitnoAt_inj (hi : i < m) (hj : j < (env.region i).brValidBits) (hg : g < n)
    (hp : p < (gd g).bgBits) (h : env.bitnoAt m g p = (env.region i).brStartBit + j) :
    g = (env.region i).ag ∧ p = (env.region i).bitOffset + j := by
  obtain ⟨i', j', hi', hj', hag, rfl, hno⟩ := lay.bit_of_group hg hp
  rw [hno] at h
  have hsame : i' = i := by
    by_contra hne
    exact lay.bit_ne hi' hi hne hj' hj h
  subst hsame
  exact ⟨hag.symm, by omega⟩

theorem Layout.offset_lt (hi : i < m) (hj : j < (env.region i).brValidBits) :
    (env.region i).bitOffset + j < (gd (env.region i).ag).bgBits := by
  have hin := lay.inside i hi
  omega

theorem Layout.allocated_update {A : Nat → Bool} (hi : i < m) (hj : j < (env.region i).brValidBits)
    (hold : A ((env.region i).brStartBit + j) = !v) :
    (env.allocated m gd (update A ((env.region i).brStartBit + j) v) (env.region i).ag +
        (!v).toNat = env.allocated m gd A (env.region i).ag + v.toNat) ∧
      ∀ g, g < n → g ≠ (env.region i).ag →
        env.allocated m gd (update A ((env.region i).brStartBit + j) v) g =
          env.allocated m gd A g := by
  have hag := lay.ag_lt i hi
  constructor
  · apply sum_range_change (lay.offset_lt hi hj)
    · rw [lay.bitnoAt_region hi hj, update_self, hold]
      cases v <;> rfl
    · intro p hp hne
      rw [update_of_ne]
      intro heq
      exact hne (lay.bitnoAt_inj hi hj hag hp heq).2
  · intro g hg hne
    refine Finset.sum_congr rfl fun p hp => ?_
    rw [update_of_ne]
    intro heq
    exact hne (lay.bitnoAt_inj hi hj hg (Finset.mem_range.mp hp) heq).1

end Layout

theorem allocated_le (env : Env) (m : Nat) (gd : Nat → GroupDesc) (A : Nat → Bool) (g : Nat) :
    env.allocated m gd A g ≤ (gd g).bgBits := by
  have hle : ∀ p ∈ Finset.range (gd g).bgBits, (A (env.bitnoAt m g p)).toNat ≤ 1 :=
    fun p _ => Bool.toNat_le _
  calc env.allocated m gd A g ≤ ∑ p ∈ Finset.range (gd g).bgBits, 1 := Finset.sum_le_sum hle
    _ = (gd g).bgBits := by simp

/-! ### The invariant -/

/-- The allocator in memory has the bits `A` allocated. -/
structure Inv (env : Env) (m n : Nat) (gd : Nat → GroupDesc) (s : St) (A : Nat → Bool) : Prop where
  length : ∀ i, i < m → (s.brBitmap i).length = (env.region i).brBytes
  bits : ∀ i, i < m → ∀ j, j < (env.region i).brValidBits →
    testBit ((env.region i).brBitmapStart + j) (s.brBitmap i) = A ((env.region i).brStartBit + j)
  shape : ∀ g, g < n → (s.crAg g).bgBits = (gd g).bgBits ∧ (s.crAg g).bgChain = (gd g).bgChain ∧
    (s.crAg g).bgBitmap.length = (gd g).bgBitmap.length
  free : ∀ g, g < n → (s.crAg g).bgFreeBitsCount + env.allocated m gd A g = (gd g).bgBits
  cFree : ∀ c, s.inode.cFree c =
    ∑ g ∈ Finset.range n, if (gd g).bgChain = c then (s.crAg g).bgFreeBitsCount else 0
  cTotal : ∀ c, s.inode.cTotal c =
    ∑ g ∈ Finset.range n, if (gd g).bgChain = c then (gd g).bgBits else 0
  used : s.inode.iUsed = ∑ g ∈ Finset.range n, env.allocated m gd A g
  clean : ∀ i, i < m → s.crDirty i = false → ∀ j, j < (env.region i).brValidBits →
    testBit ((env.region i).bitOffset + j) (s.crAg (env.region i).ag).bgBitmap =
      A ((env.region i).brStartBit + j)
  disk : ∀ g, g < n → (∀ i, i < m → (env.region i).ag = g → s.crDirty i = false) →
    s.disk g = s.crAg g
  dirty : ∀ i, i < m → s.crDirty i = true → s.cbDirty = true
  diskInode : s.cbDirty = false → s.diskInode = s.inode

theorem bump_eq (w x : Nat) (up : Bool) (hx : x < 2 ^ w)
    (h : if up then x + 1 < 2 ^ w else 0 < x) : bump w x up + (!up).toNat = x + up.toNat := by
  unfold bump
  cases up with
  | true =>
    rw [Nat.mod_eq_of_lt h]
    rfl
  | false =>
    simp only [Bool.false_eq_true, if_false] at h ⊢
    rw [show x + 2 ^ w - 1 = x - 1 + 2 ^ w by omega, Nat.add_mod_right, Nat.mod_eq_of_lt (by omega)]
    show x - 1 + 1 = x + 0
    omega

section Change

variable {env : Env} {m n : Nat} {gd : Nat → GroupDesc} {s : St} {A : Nat → Bool}
  {bm : List UInt8} {w y : Nat}

def changed (env : Env) (v : Bool) (i : Nat) (bm : List UInt8) (k : Int) (s : St) : St :=
  bitChangeNotify env i v { s with
    brBitmap := update s.brBitmap i bm
    brSetBits := update s.brSetBits i k }

theorem sum_free_le (lay : Layout env m n gd) (inv : Inv env m n gd s A) (c : Nat) :
    s.inode.cFree c < 2 ^ 32 := by
  refine lt_of_le_of_lt ?_ lay.sum_lt
  rw [inv.cFree]
  refine Finset.sum_le_sum fun g hg => ?_
  have hfree := inv.free g (Finset.mem_range.mp hg)
  split
  · omega
  · exact Nat.zero_le _

theorem changed_crAg (v : Bool) (i : Nat) (bm : List UInt8) (k : Int) :
    (changed env v i bm k s).crAg = update s.crAg (env.region i).ag { s.crAg (env.region i).ag with
        bgFreeBitsCount := bump 16 (s.crAg (env.region i).ag).bgFreeBitsCount (!v) } := rfl

theorem changed_brBitmap (v : Bool) (i : Nat) (bm : List UInt8) (k : Int) :
    (changed env v i bm k s).brBitmap = update s.brBitmap i bm := rfl

theorem changed_crDirty (v : Bool) (i : Nat) (bm : List UInt8) (k : Int) :
    (changed env v i bm k s).crDirty = update s.crDirty i true := rfl

theorem changed_free (v : Bool) (i : Nat) (bm : List UInt8) (k : Int) (g : Nat) :
    ((changed env v i bm k s).crAg g).bgFreeBitsCount =
      if g = (env.region i).ag then bump 16 (s.crAg g).bgFreeBitsCount (!v)
      else (s.crAg g).bgFreeBitsCount := by
  rw [changed_crAg]
  by_cases hg : g = (env.region i).ag
  · rw [hg, update_self, if_pos rfl]
  · rw [update_of_ne hg, if_neg hg]

theorem changed_group (v : Bool) (i : Nat) (bm : List UInt8) (k : Int) (g : Nat) :
    ((changed env v i bm k s).crAg g).bgBits = (s.crAg g).bgBits ∧
      ((changed env v i bm k s).crAg g).bgChain = (s.crAg g).bgChain ∧
      ((changed env v i bm k s).crAg g).bgBitmap = (s.crAg g).bgBitmap := by
  rw [changed_crAg]
  by_cases hg : g = (env.region i).ag
  · rw [hg, update_self]
    exact ⟨rfl, rfl, rfl⟩
  · rw [update_of_ne hg]
    exact ⟨rfl, rfl, rfl⟩

theorem changed_clean {k : Int} (h : (changed env v i bm k s).crDirty l = false) :
    l ≠ i ∧ s.crDirty l = false := by
  rw [changed_crDirty] at h
  by_cases hli : l = i
  · rw [hli, update_self] at h
    cases h
  · rw [update_of_ne hli] at h
    exact ⟨hli, h⟩

theorem bump_free (h : y + v.toNat = x + (!v).toNat) (hx : x < 2 ^ w) (hy : y < 2 ^ w) :
    bump w x (!v) = y := by
  have hbump := bump_eq w x (!v) hx (by cases v <;> simp at h ⊢ <;> omega)
  rw [Bool.not_not] at hbump
  omega

theorem bump_used (h : y + (!v).toNat = x + v.toNat) (hx : x < 2 ^ w) (hy : y < 2 ^ w) :
    bump w x v = y := by
  have hbump := bump_eq w x v hx (by cases v <;> simp at h ⊢ <;> omega)
  omega

theorem Inv.change (lay : Layout env m n gd) (inv : Inv env m n gd s A) (hi : i < m)
    (hj : j < (env.region i).brValidBits) (hold : A ((env.region i).brStartBit + j) = !v) (k : Int)
    (hlen : bm.length = (env.region i).brBytes)
    (hbm : ∀ x, testBit x bm = if x = (env.region i).brBitmapStart + j then v
      else testBit x (s.brBitmap i)) :
    Inv env m n gd (changed env v i bm k s) (update A ((env.region i).brStartBit + j) v) := by
  have hag := lay.ag_lt i hi
  obtain ⟨hcount, hcounts⟩ := lay.allocated_update hi hj hold
  have hfree := inv.free _ hag
  have hbits := lay.bits_lt _ hag
  have hle := allocated_le env m gd (update A ((env.region i).brStartBit + j) v) (env.region i).ag
  -- what the counter of the group becomes
  have hstep : bump 16 (s.crAg (env.region i).ag).bgFreeBitsCount (!v) +
      env.allocated m gd (update A ((env.region i).brStartBit + j) v) (env.region i).ag =
        (gd (env.region i).ag).bgBits := by
    obtain ⟨y, hy⟩ := Nat.exists_eq_add_of_le hle
    rw [bump_free (y := y) (by cases v <;> simp at hcount ⊢ <;> omega) (by omega) (by omega)]
    omega
  have hfree' : ∀ g, g < n → ((changed env v i bm k s).crAg g).bgFreeBitsCount +
      env.allocated m gd (update A ((env.region i).brStartBit + j) v) g = (gd g).bgBits := by
    intro g hg
    rw [changed_free]
    by_cases hgi : g = (env.region i).ag
    · subst hgi
      rw [if_pos rfl]
      exact hstep
    · rw [if_neg hgi, hcounts g hg hgi]
      exact inv.free g hg
  have hchain : (s.crAg (env.region i).ag).bgChain = (gd (env.region i).ag).bgChain :=
    (inv.shape _ hag).2.1
  constructor
  · intro l hl
    rw [changed_brBitmap]
    by_cases hli : l = i
    · subst hli
      rw [update_self]
      exact hlen
    · rw [update_of_ne hli]
      exact inv.length l hl
  · intro l hl x hx
    rw [changed_brBitmap]
    by_cases hli : l = i
    · subst hli
      rw [update_self, hbm]
      by_cases hxj : x = j
      · subst hxj
        rw [if_pos rfl, update_self]
      · rw [if_neg (by omega), update_of_ne (by omega)]
        exact inv.bits l hl x hx
    · rw [update_of_ne hli, update_of_ne (lay.bit_ne hl hi hli hx hj)]
      exact inv.bits l hl x hx
  · intro g hg
    rw [(changed_group v i bm k g).1, (changed_group v i bm k g).2.1,
      (changed_group v i bm k g).2.2]
    exact inv.shape g hg
  · exact hfree'
  · intro c
    -- the sum over the groups of a chain changes just as the counter of the group does
    have hsum : (∑ g ∈ Finset.range n, if (gd g).bgChain = c then
          ((changed env v i bm k s).crAg g).bgFreeBitsCount else 0) +
        (if (gd (env.region i).ag).bgChain = c then v.toNat else 0) =
        s.inode.cFree c + (if (gd (env.region i).ag).bgChain = c then (!v).toNat else 0) := by
      rw [inv.cFree]
      apply sum_range_change hag
      · rw [changed_free]
        split
        · cases v <;> simp at hcount hstep ⊢ <;> omega
        · rfl
      · intro g hg hne
        rw [changed_free, if_neg hne]
    have hlt : (∑ g ∈ Finset.range n, if (gd g).bgChain = c then
        ((changed env v i bm k s).crAg g).bgFreeBitsCount else 0) < 2 ^ 32 := by
      refine lt_of_le_of_lt (Finset.sum_le_sum fun g hg => ?_) lay.sum_lt
      have := hfree' g (Finset.mem_range.mp hg)
      split
      · omega
      · exact Nat.zero_le _
    show update s.inode.cFree _ _ c = _
    by_cases hc : c = (gd (env.region i).ag).bgChain
    · subst hc
      rw [if_pos rfl, if_pos rfl] at hsum
      rw [hchain, update_self]
      exact bump_free hsum (sum_free_le lay inv _) hlt
    · rw [if_neg (Ne.symm hc), if_neg (Ne.symm hc)] at hsum
      rw [hchain, update_of_ne hc]
      omega
  · exact inv.cTotal
  · have hsum : (∑ g ∈ Finset.range n,
          env.allocated m gd (update A ((env.region i).brStartBit + j) v) g) + (!v).toNat =
        s.inode.iUsed + v.toNat := by
      rw [inv.used]
      exact sum_range_change hag hcount hcounts
    have hlt : ∀ B, ∑ g ∈ Finset.range n, env.allocated m gd B g < 2 ^ 32 := fun B =>
      lt_of_le_of_lt (Finset.sum_le_sum fun g _ => allocated_le env m gd B g) lay.sum_lt
    exact bump_used hsum (inv.used ▸ hlt A) (hlt _)
  · intro l hl hclean x hx
    obtain ⟨hli, hwas⟩ := changed_clean hclean
    rw [(changed_group v i bm k _).2.2, update_of_ne (lay.bit_ne hl hi hli hx hj)]
    exact inv.clean l hl hwas x hx
  · intro g hg hclean
    have hgi : g ≠ (env.region i).ag := fun h => (changed_clean (hclean i hi h.symm)).1 rfl
    rw [changed_crAg, update_of_ne hgi]
    exact inv.disk g hg fun l hl hlg => (changed_clean (hclean l hl hlg)).2
  · intro _ _ _
    rfl
  · intro hfalse
    cases hfalse

end Change

end Ocfs2Tools.ChainAlloc
