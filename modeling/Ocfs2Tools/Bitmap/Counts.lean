import Ocfs2Tools.Bitmap.Holes

/-!
# The counters of a bitmap

`b_set_bits` is changed by `ocfs2_bitmap_set` and `ocfs2_bitmap_clear` only. The counters of the
regions are changed by `ocfs2_bitmap_alloc_range` and `ocfs2_bitmap_clear_range`, too, and come
with the regions that are inserted.
-/

namespace Ocfs2Tools.Bitmap

open ChainAlloc (RTree bump bump_eq sum_range_change)

/-- The calls that change a bitmap. -/
inductive Call where
  | change (op : BitOp)
  | allocRange (min len : Nat)
  | clearRange (len firstBit : Nat)
  | insert (br : Region)

def Call.run (shape : Nat → RTree) (kind : Kind) (b : Bitmap) : Call → Option Bitmap
  | .change op => op.run shape kind b
  | .allocRange min len => some (b.allocRange min len).2
  | .clearRange len firstBit => (b.clearRange shape len firstBit).map (·.2)
  | .insert br => some (insertRegion shape kind br b).2

/-- The counters agree with one another and with the bits. -/
structure Counted (shape : Nat → RTree) (kind : Kind) (b : Bitmap) : Prop where
  regions : (b.bSetBits : Int) = setBitsOf b.regions
  bits : b.bSetBits =
    ((Finset.range b.bTotalBits).filter fun x => bitmapTest shape kind x b = .ok true).card

/-- A call that leaves the counters alone or counts what it does. -/
def Call.Counts (kind : Kind) (b : Bitmap) : Call → Prop
  | .change op => kind = .block → op.value = false → op.junk = true →
      b.bTotalBits ≤ op.bitno ∨ (bitsOf b.regions op.bitno).isSome
  | .insert br => br.Ok ∧ br.stop < 2 ^ 64 ∧ br.brSetBits = 0 ∧ ∀ x, br.bitAt x ≠ some true
  | .allocRange .. => False
  | .clearRange .. => False

/-- Every call of a history counts, in the state it is made in. -/
def AllCount (shape : Nat → RTree) (kind : Kind) : Bitmap → List Call → Prop
  | _, [] => True
  | b, c :: cs => c.Counts kind b ∧ ∀ b', c.run shape kind b = some b' → AllCount shape kind b' cs

def numSet (b : Bitmap) : Nat :=
  ∑ x ∈ Finset.range b.bTotalBits, ((bitsOf b.regions x).getD false).toNat

structure CountInv (b : Bitmap) : Prop where
  good : Good b.regions
  total : b.bTotalBits < 2 ^ 64
  regions : (b.bSetBits : Int) = setBitsOf b.regions
  bits : b.bSetBits = b.numSet

theorem numSet_le (b : Bitmap) : b.numSet ≤ b.bTotalBits := by
  calc b.numSet ≤ ∑ x ∈ Finset.range b.bTotalBits, 1 := Finset.sum_le_sum fun _ _ => Bool.toNat_le _
    _ = b.bTotalBits := by simp

section Run

variable {shape : Nat → RTree} {kind : Kind} (hshape : InOrder shape) {b : Bitmap}
include hshape

theorem CountInv.counted (h : CountInv b) : Counted shape kind b := by
  refine ⟨h.regions, ?_⟩
  rw [h.bits, Finset.card_filter]
  refine Finset.sum_congr rfl fun x hx => ?_
  have hx := Finset.mem_range.mp hx
  have htotal := h.total
  rw [bitmapTest_eq hshape h.good (by omega) hx]
  cases bitsOf b.regions x with
  | none => by_cases hk : kind = .block <;> simp [hk]
  | some v => cases v <;> simp

theorem CountInv.change (h : CountInv b) (op : BitOp) (hop : (Call.change op).Counts kind b) :
    ∃ b', op.run shape kind b = some b' ∧ CountInv b' := by
  obtain ⟨hgood, htotal, hregions, hbits⟩ := h
  unfold BitOp.run
  rcases @bitmapChange_cases shape kind b op.bitno op.value hshape hgood htotal op.junk with
    ⟨-, heq⟩ | ⟨l', hlt, hkind, hch, heq⟩
  · exact ⟨b, by rw [heq]; rfl, hgood, htotal, hregions, hbits⟩
  · -- what is taken for the old value is the old value
    have hold : (bitsOf b.regions op.bitno).getD (!op.value && op.junk) =
        (bitsOf b.regions op.bitno).getD false := by
      cases hbit : bitsOf b.regions op.bitno with
      | some v => rfl
      | none =>
        have hk : kind = .block := hkind.resolve_right (not_not.mpr hbit)
        have hop := hop hk
        cases hv : op.value <;> cases hj : op.junk <;> simp_all
        omega
    rw [hold] at heq
    refine ⟨_, by rw [heq]; rfl, ?_⟩
    have hsum := @sum_range_change _ _ hlt (fun x => ((bitsOf b.regions x).getD false).toNat)
      (fun x => ((bitsOf l' x).getD false).toNat)
      ((bitsOf b.regions op.bitno).getD false).toNat op.value.toNat (by simp [hch.bits, add_comm])
        (fun x _ hne => by simp [hch.bits, hne])
    have hset := hch.setBits
    have hle := numSet_le b
    have hle' := numSet_le { b with regions := l' }
    unfold numSet at hbits hle hle'
    dsimp only at hle'
    have hcount : (if (bitsOf b.regions op.bitno).getD false = op.value then b.bSetBits
        else bump 64 b.bSetBits op.value) + ((bitsOf b.regions op.bitno).getD false).toNat =
        b.bSetBits + op.value.toNat := by
      split
      · next hv => rw [hv]
      · next hv =>
        have hold := Bool.eq_not_of_ne hv
        rw [hold] at hsum ⊢
        refine bump_eq 64 _ _ (by omega) ?_
        cases hop : op.value <;> simp [hop] at hsum ⊢ <;> omega
    refine ⟨hch.good, htotal, ?_, ?_⟩
    · dsimp only
      omega
    · unfold numSet
      dsimp only
      omega

theorem CountInv.insert (h : CountInv b) {br : Region} (hbr : (Call.insert br).Counts kind b) :
    CountInv (insertRegion shape kind br b).2 := by
  obtain ⟨hgood, htotal, hregions, hbits⟩ := h
  obtain ⟨hok, hwrap, hzero, hclear⟩ := hbr
  rcases @insertRegion_cases shape b kind br hshape hgood hok hwrap with ⟨-, heq⟩ |
    ⟨P, S, hPS, hg, heq⟩
  · rw [heq]
    exact ⟨hgood, htotal, hregions, hbits⟩
  · have hsame : Same _ (linkRegion (kind != .chain) b.bTotalBits P br S) :=
      (linkRegion_joined P br S).same hg
    have hvalue : ∀ x, (bitsOf (P ++ br :: S) x).getD false = (bitsOf (P ++ S) x).getD false := by
      intro x
      cases hbit : br.bitAt x with
      | none => rw [bitsOf_append, bitsOf_cons, hbit, Option.none_or, bitsOf_append]
      | some v =>
        obtain ⟨h1, h2⟩ := bitAt_eq_some hbit
        obtain ⟨hP, hmid⟩ := bitsOf_middle hg h1 h2
        have hS : bitsOf S x = none := by
          by_contra hne
          obtain ⟨w, hw⟩ := Option.ne_none_iff_exists'.mp hne
          have := (bitsOf_cons_eq_some hg.tail w x).2 hw
          omega
        rw [hmid, hbit, bitsOf_append, hP, hS]
        cases v
        · rfl
        · exact absurd hbit (hclear x)
    rw [heq]
    refine ⟨hsame.good, htotal, ?_, ?_⟩
    · rw [hsame.setBits, hregions, hPS]
      simp [setBitsOf, hzero]
    · rw [hbits, numSet, hPS]
      exact Finset.sum_congr rfl fun x _ => by rw [hsame.bits, hvalue]

/-- After a history without range calls, whose regions come clear and which clears no bit that
    has no region, the counters agree. -/
theorem run_counted {total : Nat} (htotal : total < 2 ^ 64) (cs : List Call)
    (hcs : AllCount shape kind ⟨total, 0, []⟩ cs) :
    ∃ b, cs.foldlM (Call.run shape kind) ⟨total, 0, []⟩ = some b ∧ Counted shape kind b := by
  suffices h : ∀ (cs : List Call) (b : Bitmap), CountInv b → AllCount shape kind b cs →
      ∃ b', cs.foldlM (Call.run shape kind) b = some b' ∧ CountInv b' by
    obtain ⟨b, heq, hb⟩ := h cs ⟨total, 0, []⟩
      ⟨⟨.nil, nofun⟩, htotal, rfl, by simp [numSet, bitsOf]⟩ hcs
    exact ⟨b, heq, hb.counted hshape⟩
  intro cs
  induction cs with
  | nil => exact fun b h _ => ⟨b, rfl, h⟩
  | cons c cs ih =>
    rintro b h ⟨hc, hcs⟩
    obtain ⟨b₁, heq, h₁⟩ : ∃ b₁, c.run shape kind b = some b₁ ∧ CountInv b₁ := by
      cases c with
      | change op => exact h.change hshape op hc
      | insert br => exact ⟨_, rfl, h.insert hshape hc⟩
      | allocRange => exact hc.elim
      | clearRange => exact hc.elim
    rw [List.foldlM_cons, heq]
    exact ih b₁ h₁ (hcs b₁ heq)

end Run

/-- A range is taken: the region counts it, the bitmap does not. -/
theorem allocRange_not_counted :
    (([.insert (allocRegion 0 0 8), .allocRange 1 4] : List Call).foldlM (Call.run spine .cluster)
      ⟨16, 0, []⟩).map (fun b => (b.bSetBits, setBitsOf b.regions)) = some (0, 4) := by decide

theorem run_counted_set :
    ∃ b, ([.insert (allocRegion 0 0 8), .change ⟨true, 3, false⟩] : List Call).foldlM
      (Call.run spine .cluster) ⟨16, 0, []⟩ = some b ∧ Counted spine .cluster b := by
  refine run_counted spine_inOrder (by decide) _ ⟨⟨allocRegion_ok 0 (by decide) (by decide),
    by decide, rfl, fun x h => ?_⟩, fun _ _ => ⟨nofun, fun _ _ => trivial⟩⟩
  rw [bitAt_allocRegion] at h
  split at h <;> cases h

end Ocfs2Tools.Bitmap
