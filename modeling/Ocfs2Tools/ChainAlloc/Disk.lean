import Ocfs2Tools.ChainAlloc.Range

/-!
# What a write leaves on the device

`ocfs2_write_chain_allocator` writes the groups of the dirty regions and then the inode. If
a write fails, the regions that are left stay dirty, so the invariant survives it. If none
does, the device holds the allocated bits and their counts.
-/

namespace Ocfs2Tools.ChainAlloc

open Prog Function Bitops

/-! ### Writing -/

section Write

variable {env : Env} {m n : Nat} {gd : Nat → GroupDesc} {s : St} {A : Nat → Bool}
  {i : Nat} (lay : Layout env m n gd) (inv : Inv env m n gd s A)
include lay inv

theorem Layout.written_fits (hi : i < m) : (env.region i).bitOffset / 8 + (env.region i).brBytes ≤
      (s.crAg (env.region i).ag).bgBitmap.length := by
  have hag := lay.ag_lt i hi
  have hin := lay.inside i hi
  have hlen := lay.bitmap_le _ hag
  have hbytes : (env.region i).brBytes =
      ((env.region i).brValidBits + (env.region i).bitOffset % 8 + 7) / 8 := rfl
  rw [(inv.shape _ hag).2.2]
  omega

theorem Layout.written_bits {l j : Nat}
    (hi : i < m) (hl : l < m) (hag : (env.region l).ag = (env.region i).ag)
    (hj : j < (env.region l).brValidBits) (hclean : l ≠ i → s.crDirty l = false) :
    testBit ((env.region l).bitOffset + j)
      (copyBytes (s.crAg (env.region i).ag).bgBitmap ((env.region i).bitOffset / 8)
        (merged (env.region i) (s.crAg (env.region i).ag).bgBitmap (s.brBitmap i))) =
      A ((env.region l).brStartBit + j) := by
  rw [testBit_written (lay.valid_pos i hi) (inv.length i hi) (lay.written_fits inv hi)]
  by_cases hli : l = i
  · subst hli
    rw [if_pos ⟨by omega, by omega⟩,
      show (env.region l).bitOffset + j - (env.region l).bitOffset + (env.region l).brBitmapStart =
        (env.region l).brBitmapStart + j by omega]
    exact inv.bits l hl j hj
  · rw [if_neg, ← hag]
    · exact inv.clean l hl (hclean hli) j hj
    · rintro ⟨hlo, hhi⟩
      exact hli (lay.apart l i hl hi hag _ (by omega) (by omega) hlo hhi)

def writtenGroup (env : Env) (i : Nat) (s : St) : GroupDesc :=
  { s.crAg (env.region i).ag with
    bgBitmap := copyBytes (s.crAg (env.region i).ag).bgBitmap ((env.region i).bitOffset / 8)
      (merged (env.region i) (s.crAg (env.region i).ag).bgBitmap (s.brBitmap i)) }

theorem Inv.write (hi : i < m) (hdirty : s.crDirty i = true) (d : GroupDesc) (b : Bool)
    (hb : b = false → d = writtenGroup env i s) : Inv env m n gd { s with
      brBitmap := update s.brBitmap i
        (merged (env.region i) (s.crAg (env.region i).ag).bgBitmap (s.brBitmap i))
      crAg := update s.crAg (env.region i).ag (writtenGroup env i s)
      disk := update s.disk (env.region i).ag d
      crDirty := update s.crDirty i b } A := by
  -- the other regions are as dirty as before
  have hother : ∀ {l}, update s.crDirty i b l = false → l ≠ i → s.crDirty l = false := by
    intro l hl hli
    rwa [update_of_ne hli] at hl
  have hfree : ∀ g, (update s.crAg (env.region i).ag (writtenGroup env i s) g).bgFreeBitsCount =
      (s.crAg g).bgFreeBitsCount := by
    intro g
    by_cases hg : g = (env.region i).ag
    · rw [hg, update_self]
      rfl
    · rw [update_of_ne hg]
  constructor
  · intro l hl
    show List.length (update s.brBitmap i _ l) = _
    by_cases hli : l = i
    · subst hli
      rw [update_self, length_merged]
      exact inv.length l hl
    · rw [update_of_ne hli]
      exact inv.length l hl
  · intro l hl j hj
    show testBit _ (update s.brBitmap i _ l) = _
    by_cases hli : l = i
    · subst hli
      rw [update_self, testBit_merged (lay.valid_pos l hl) (inv.length l hl) hj]
      exact inv.bits l hl j hj
    · rw [update_of_ne hli]
      exact inv.bits l hl j hj
  · intro g hg
    by_cases hgi : g = (env.region i).ag
    · subst hgi
      simp only [update_self, writtenGroup]
      rw [length_copyBytes (by rw [length_merged, inv.length i hi]; exact lay.written_fits inv hi)]
      exact inv.shape _ hg
    · simp only [update_of_ne hgi]
      exact inv.shape g hg
  · intro g hg
    simp only [hfree]
    exact inv.free g hg
  · intro c
    simp only [hfree]
    exact inv.cFree c
  · exact inv.cTotal
  · exact inv.used
  · intro l hl hclean j hj
    show testBit _ (update s.crAg (env.region i).ag (writtenGroup env i s) _).bgBitmap = _
    by_cases hgi : (env.region l).ag = (env.region i).ag
    · rw [hgi, update_self]
      exact lay.written_bits inv hi hl hgi hj fun hli => hother hclean hli
    · have hli : l ≠ i := fun h => hgi (h ▸ rfl)
      rw [update_of_ne hgi]
      exact inv.clean l hl (hother hclean hli) j hj
  · intro g hg hclean
    show update s.disk _ d g = update s.crAg _ _ g
    by_cases hgi : g = (env.region i).ag
    · have hbfalse := hclean i hi hgi.symm
      change update s.crDirty i b i = false at hbfalse
      rw [update_self] at hbfalse
      rw [hgi, update_self, update_self, hb hbfalse]
    · rw [update_of_ne hgi, update_of_ne hgi]
      exact inv.disk g hg fun l hl hlg => hother (hclean l hl hlg) fun h => hgi (h ▸ hlg.symm)
  · intro l hl _
    exact inv.dirty i hi hdirty
  · exact inv.diskInode

theorem writeGroup_run (fault : Nat → Option GroupDesc) (hi : i < m) :
    ∃ r s', writeGroup env fault i s = some (r, s') ∧ Inv env m n gd s' A ∧ s'.cbDirty = s.cbDirty ∧
      (r = .ok () → s'.crDirty i = false ∧ ∀ l, s.crDirty l = false → s'.crDirty l = false) := by
  unfold writeGroup
  split
  · next hdirty =>
    cases fault i with
    | some torn =>
      refine ⟨_, _, rfl, ?_, rfl, nofun⟩
      have hinv := inv.write lay hi hdirty torn true (nofun)
      rw [← hdirty, update_eq_self] at hinv
      exact hinv
    | none =>
      refine ⟨_, _, rfl, inv.write lay hi hdirty _ false fun _ => rfl, rfl, fun _ => ⟨?_, ?_⟩⟩
      · exact update_self i false s.crDirty
      · intro l hl
        show update s.crDirty i false l = false
        by_cases hli : l = i
        · rw [hli, update_self]
        · rwa [update_of_ne hli]
  · next hdirty =>
    exact ⟨_, s, rfl, inv, rfl, fun _ => ⟨Bool.eq_false_of_not_eq_true hdirty, fun _ h => h⟩⟩

omit inv in
theorem writeGroups_run (fault : Nat → Option GroupDesc) (is) {s}
    (inv : Inv env m n gd s A) (hmem : (∀ i ∈ is, i < m)) :
    ∃ r s', writeGroups env fault is s = some (r, s') ∧ Inv env m n gd s' A ∧ s'.cbDirty = s.cbDirty
      ∧ (r = .ok () → (∀ i ∈ is, s'.crDirty i = false) ∧ ∀ l, s.crDirty l = false → s'.crDirty l =
      false) := by
  induction is generalizing s with
  | nil =>
    exact ⟨_, s, rfl, inv, rfl, fun _ => ⟨fun i hi => absurd hi List.not_mem_nil, fun _ h => h⟩⟩
  | cons i rest ih =>
    obtain ⟨r₁, s₁, hrun₁, hinv₁, hcb₁, hok₁⟩ := writeGroup_run lay inv fault
      (hmem i List.mem_cons_self)
    cases r₁ with
    | error e => exact ⟨_, s₁, bind_error hrun₁ _, hinv₁, hcb₁, nofun⟩
    | ok u =>
      obtain ⟨r, s', hrun, hinv, hcb, hok⟩ :=
          ih hinv₁ fun l hl => hmem l (List.mem_cons_of_mem _ hl)
      refine ⟨r, s', (bind_ok hrun₁ _).trans hrun, hinv, hcb.trans hcb₁, fun hr => ?_⟩
      obtain ⟨hclean, hkeep⟩ := hok hr
      obtain ⟨hi, hkeep₁⟩ := hok₁ rfl
      exact ⟨List.forall_mem_cons.mpr ⟨hkeep _ hi, hclean⟩, fun l hl => hkeep l (hkeep₁ l hl)⟩

/-! ### What the device holds -/

def GroupDesc.setCount (g : GroupDesc) : Nat :=
  ∑ p ∈ Finset.range g.bgBits, (testBit p g.bgBitmap).toNat

/-- The device has just the bits `A` set, and their counts. -/
structure OnDisk (env : Env) (m n : Nat) (gd : Nat → GroupDesc) (s : St)
    (A : Nat → Bool) : Prop where
  groups : ∀ g, g < n → (s.disk g).bgBits = (gd g).bgBits ∧ (s.disk g).bgChain = (gd g).bgChain
  bits : ∀ i, i < m → ∀ j, j < (env.region i).brValidBits →
    testBit ((env.region i).bitOffset + j) (s.disk (env.region i).ag).bgBitmap =
      A ((env.region i).brStartBit + j)
  free : ∀ g, g < n → (s.disk g).bgFreeBitsCount + (s.disk g).setCount = (s.disk g).bgBits
  cFree : ∀ c, s.diskInode.cFree c =
    ∑ g ∈ Finset.range n, if (s.disk g).bgChain = c then (s.disk g).bgFreeBitsCount else 0
  cTotal : ∀ c, s.diskInode.cTotal c =
    ∑ g ∈ Finset.range n, if (s.disk g).bgChain = c then (s.disk g).bgBits else 0
  used : s.diskInode.iUsed = ∑ g ∈ Finset.range n, (s.disk g).setCount

theorem Inv.onDisk (hcb : s.cbDirty = false) : OnDisk env m n gd s A := by
  have hclean : ∀ i, i < m → s.crDirty i = false := by
    intro i hi
    by_contra hdirty
    have := inv.dirty i hi (Bool.eq_true_of_not_eq_false hdirty)
    rw [hcb] at this
    cases this
  have hdisk : ∀ g, g < n → s.disk g = s.crAg g := fun g hg =>
    inv.disk g hg fun i hi _ => hclean i hi
  have hcount : ∀ g, g < n → (s.crAg g).setCount = env.allocated m gd A g := by
    intro g hg
    unfold GroupDesc.setCount Env.allocated
    rw [(inv.shape g hg).1]
    refine Finset.sum_congr rfl fun p hp => ?_
    obtain ⟨i, j, hi, hj, hag, rfl, hno⟩ := lay.bit_of_group hg (Finset.mem_range.mp hp)
    rw [hno, ← hag, inv.clean i hi (hclean i hi) j hj]
  constructor
  · intro g hg
    rw [hdisk g hg]
    exact ⟨(inv.shape g hg).1, (inv.shape g hg).2.1⟩
  · intro i hi j hj
    rw [hdisk _ (lay.ag_lt i hi)]
    exact inv.clean i hi (hclean i hi) j hj
  · intro g hg
    rw [hdisk g hg, hcount g hg, (inv.shape g hg).1]
    exact inv.free g hg
  · intro c
    rw [inv.diskInode hcb, inv.cFree]
    refine Finset.sum_congr rfl fun g hg => ?_
    have hgn := Finset.mem_range.mp hg
    rw [hdisk g hgn, (inv.shape g hgn).2.1]
  · intro c
    rw [inv.diskInode hcb, inv.cTotal]
    refine Finset.sum_congr rfl fun g hg => ?_
    have hgn := Finset.mem_range.mp hg
    rw [hdisk g hgn, (inv.shape g hgn).2.1, (inv.shape g hgn).1]
  · rw [inv.diskInode hcb, inv.used]
    refine Finset.sum_congr rfl fun g hg => ?_
    have hgn := Finset.mem_range.mp hg
    rw [hdisk g hgn, hcount g hgn]

theorem writeChainAllocator_run (fault : Nat → Option GroupDesc) (inodeFault : Option ChainInode) :
    ∃ r s', writeChainAllocator env fault inodeFault s = some (r, s') ∧ Inv env m n gd s' A ∧
      (r = .ok () → OnDisk env m n gd s' A) := by
  unfold writeChainAllocator
  rw [bind_ok (get_run s)]
  cases hcb : s.cbDirty with
  | false => exact ⟨_, s, rfl, inv, fun _ => inv.onDisk lay hcb⟩
  | true =>
    rw [if_pos rfl]
    obtain ⟨r, t, hrun, hinv, ht, hok⟩ := writeGroups_run lay fault env.tree.toList inv
      fun i hi => (lay.mem_tree i).mp hi
    cases r with
    | error e => exact ⟨_, t, bind_error hrun _, hinv, nofun⟩
    | ok u =>
      rw [bind_ok hrun]
      have hclean : ∀ i, i < m → t.crDirty i = false := fun i hi =>
        (hok rfl).1 i ((lay.mem_tree i).mpr hi)
      cases inodeFault with
      | some torn =>
        refine ⟨_, _, rfl, { hinv with diskInode := ?_ }, nofun⟩
        intro hfalse
        rw [ht, hcb] at hfalse
        cases hfalse
      | none =>
        have hinv' : Inv env m n gd { t with diskInode := t.inode, cbDirty := false } A := by
          refine { hinv with dirty := ?_, diskInode := ?_ }
          · intro i hi hdirty
            rw [hclean i hi] at hdirty
            cases hdirty
          · intro _
            rfl
        exact ⟨_, _, rfl, hinv', fun _ => hinv'.onDisk lay rfl⟩

end Write

end Ocfs2Tools.ChainAlloc
