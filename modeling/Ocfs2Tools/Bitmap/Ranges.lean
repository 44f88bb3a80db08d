import Ocfs2Tools.Bitmap.Bits

/-!
# Clearing a range

`ocfs2_bitmap_clear_range` looks for a region that meets the range and clears all the bits of
the range in the buffer of that region, also those that belong to another one or to none. The
end of the range is computed without a check for overflow.
-/

namespace Ocfs2Tools.Bitmap

open Bitops List
open ChainAlloc (RTree)

/-- Where the buffer of a region has the bit `y`; the number may be none of the buffer. -/
def Region.place (r : Region) (y : Nat) : Int := (y : Int) - r.brStartBit + r.brBitmapStart

structure Swept (p : Nat → Prop) (r r' : Region) : Prop where
  start : r'.brStartBit = r.brStartBit
  bitmapStart : r'.brBitmapStart = r.brBitmapStart
  valid : r'.brValidBits = r.brValidBits
  length : r'.brBitmap.length = r.brBitmap.length
  bits : ∀ k, testBit k r'.brBitmap = true ↔ testBit k r.brBitmap = true ∧ ¬p k

section Loop

variable {P S : List Region}

theorem clearRun_cases (count bitno r b) (heq : b.regions = P ++ r :: S) :
    (clearRun P.length count bitno b = none ∧ ∃ y, bitno ≤ y ∧ y < bitno + count ∧ ¬(0 ≤ r.place y ∧
      r.place y < 8 * r.brBitmap.length)) ∨ ((∀ y, bitno ≤ y → y < bitno + count → 0 ≤ r.place y ∧
      r.place y < 8 * r.brBitmap.length) ∧ ∃ r', clearRun P.length count bitno b = some { b with
      regions := P ++ r' :: S } ∧ Swept (fun k => r.place bitno ≤ k ∧ k < r.place (bitno + count)) r
      r') := by
  induction count generalizing bitno r b with
  | zero =>
    refine .inr ⟨fun y h1 h2 => by omega, r, by rw [clearRun, ← heq], rfl, rfl, rfl, rfl,
      fun k => ?_⟩
    simp
  | succ count ih =>
    have hget : b.regions.getD P.length default = r := by simp [heq]
    rw [clearRun, changeShared, hget]
    by_cases hin : 0 ≤ r.place bitno ∧ r.place bitno < 8 * r.brBitmap.length
    · obtain ⟨nr, hnr⟩ := Int.eq_ofNat_of_zero_le hin.1
      have hlt : nr < 8 * r.brBitmap.length := by omega
      have hplace : (bitno : Int) - r.brStartBit + r.brBitmapStart = nr := hnr
      rw [hplace, if_pos (by omega), heq, modify_middle]
      have hstep : ∀ y, (r.change false nr).place y = r.place y := fun _ => rfl
      have hlen : (r.change false nr).brBitmap.length = r.brBitmap.length := length_change
      rcases ih (bitno + 1) (r.change false nr)
        { b with regions := P ++ r.change false nr :: S } rfl
        with ⟨hnone, y, h1, h2, h3⟩ | ⟨hall, r', hsome, h1, h2, h3, h4, h5⟩
      · rw [hlen] at h3
        exact .inl ⟨hnone, y, by omega, by omega, h3⟩
      · simp only [hstep, hlen] at hall h5
        refine .inr ⟨fun y hy hy' => ?_, r', hsome, h1, h2, h3, h4.trans hlen, fun k => ?_⟩
        · rcases Nat.eq_or_lt_of_le hy with rfl | hy
          · exact hin
          · exact hall y hy (by omega)
        · rw [h5, testBit_change hlt]
          unfold Region.place at hnr ⊢
          split
          · simp only [Bool.false_eq_true, false_and, false_iff, not_and]
            omega
          · refine and_congr_right fun _ => not_congr ?_
            omega
    · have hin' := hin
      unfold Region.place at hin'
      rw [if_neg hin']
      exact .inl ⟨rfl, bitno, le_refl _, by omega, hin⟩

end Loop

/-- Exactly the bits of the range are cleared, in all buffers, and each has a region; or the call
    fails and nothing happens. -/
def ClearsExactly (len firstBit : Nat) (b : Bitmap) : Result Unit → Prop
  | none => False
  | some (.error _, b') => b' = b
  | some (.ok (), b') => (∀ y, firstBit ≤ y → y < firstBit + len → bitsOf b.regions y ≠ none) ∧
      List.Forall₂ (fun r r' => Swept (fun k => r.brBitmapStart ≤ k ∧ k < r.brTotalBits ∧
        r.place firstBit ≤ (k : Int) ∧ (k : Int) < r.place (firstBit + len)) r r')
        b.regions b'.regions

/-- The range is right for the region found: what it has outside of it is in the buffer and clear
    there, and clear where it belongs. -/
def RangeFits (len firstBit : Nat) (b : Bitmap) (r : Region) : Prop :=
  firstBit + len < 2 ^ 64 ∧ ∀ y, firstBit ≤ y → y < firstBit + len →
    (r.brStartBit ≤ y ∧ y < r.stop) ∨ (bitsOf b.regions y = some false ∧ 0 ≤ r.place y ∧
      r.place y < 8 * r.brBitmap.length ∧ testBit (r.place y).toNat r.brBitmap = false)

section Exact

variable {b : Bitmap} {len firstBit : Nat} {P S : List Region} {r r' : Region}

theorem forall₂_middle {R : Region → Region → Prop} : List.Forall₂ R (P ++ r :: S) (P ++ r' :: S) ↔
    (∀ q ∈ P ++ S, R q q) ∧ R r r' := by
  induction P with
  | nil => simp [forall₂_same, and_comm]
  | cons p P ih => simp only [cons_append, forall₂_cons, ih, forall_mem_cons, and_assoc]

theorem Good.bitsOf_mem {l : List Region} (h : Good l) (hr : r ∈ l) {y : Nat}
    (h1 : r.brStartBit ≤ y) (h2 : y < r.stop) : bitsOf l y = r.bitAt y := by
  obtain ⟨P, S, rfl⟩ := append_of_mem hr
  exact (bitsOf_middle h h1 h2).2

theorem swept_exact_iff (hb : Good b.regions) (heq : b.regions = P ++ r :: S)
    (hwrap : firstBit + len < 2 ^ 64) (hin : ∀ y, firstBit ≤ y → y < firstBit + len →
      0 ≤ r.place y ∧ r.place y < 8 * r.brBitmap.length)
    (hr : Swept (fun k => r.place firstBit ≤ k ∧ k < r.place (firstBit + len)) r r') :
    ClearsExactly len firstBit b (some (.ok (), { b with regions := P ++ r' :: S })) ↔
      RangeFits len firstBit b r := by
  have hmem : ∀ q ∈ P ++ S, q ∈ b.regions ∧ ∀ y, q.brStartBit ≤ y → y < q.stop →
      ¬(r.brStartBit ≤ y ∧ y < r.stop) := by
    intro q hq
    obtain ⟨hP, hS, -⟩ := Good.around (heq ▸ hb)
    rcases mem_append.mp hq with hq | hq
    · refine ⟨by simp [heq, hq], fun y _ h2 => ?_⟩
      have := hP q hq
      omega
    · refine ⟨by simp [heq, hq], fun y h1 _ => ?_⟩
      have := hS q hq
      omega
  unfold ClearsExactly RangeFits
  dsimp only
  rw [heq, forall₂_middle]
  constructor
  · rintro ⟨hall, hothers, hswept⟩
    refine ⟨hwrap, fun y h1 h2 => ?_⟩
    by_cases hy : r.brStartBit ≤ y ∧ y < r.stop
    · exact .inl hy
    right
    have hplace := hin y h1 h2
    refine ⟨?_, hplace.1, hplace.2, ?_⟩
    · obtain ⟨v, hv⟩ := Option.ne_none_iff_exists'.mp (hall y h1 h2)
      obtain ⟨q, hq, hbit⟩ := exists_of_findSome?_eq_some hv
      obtain ⟨hq1, hq2⟩ : q.brStartBit ≤ y ∧ y < q.stop := by
        by_contra hno
        rw [bitAt_eq_none.mpr (by omega)] at hbit
        cases hbit
      have hq' : q ∈ P ++ S := by
        simp only [mem_append, mem_cons] at hq ⊢
        rcases hq with hq | rfl | hq
        · exact .inl hq
        · exact absurd ⟨hq1, hq2⟩ hy
        · exact .inr hq
      rw [hv]
      cases v
      · rfl
      · rw [bitAt_inside hq1 hq2, Option.some.injEq] at hbit
        refine absurd ?_ (((hothers q hq').bits _).mp hbit).2
        unfold Region.stop at hq2
        unfold Region.brTotalBits Region.place
        omega
    · by_contra hset
      rw [Bool.not_eq_false] at hset
      have hno := ((hr.bits _).mp ((hswept.bits _).mpr ⟨hset, ?_⟩)).2
      · unfold Region.place at hno hplace
        omega
      · unfold Region.stop at hy
        unfold Region.brTotalBits Region.place
        unfold Region.place at hplace
        omega
  · rintro ⟨-, hfits⟩
    rw [← heq] at hfits
    refine ⟨fun y h1 h2 => ?_, fun q hq => ?_, hr.start, hr.bitmapStart, hr.valid, hr.length,
      fun k => ?_⟩
    · rcases hfits y h1 h2 with ⟨hy1, hy2⟩ | ⟨hy, -⟩
      · rw [← heq, hb.bitsOf_mem (by simp [heq]) hy1 hy2, bitAt_inside hy1 hy2]
        exact nofun
      · rw [← heq, hy]
        exact nofun
    · obtain ⟨hq, hapart⟩ := hmem q hq
      refine ⟨rfl, rfl, rfl, rfl, fun k => (and_iff_left_of_imp fun hset => ?_).symm⟩
      rintro ⟨h1, h2, h3, h4⟩
      unfold Region.brTotalBits at h2
      unfold Region.place at h3 h4
      have hq1 : q.brStartBit ≤ k - q.brBitmapStart + q.brStartBit := Nat.le_add_left _ _
      have hq2 : k - q.brBitmapStart + q.brStartBit < q.stop := by
        unfold Region.stop
        omega
      rcases hfits (k - q.brBitmapStart + q.brStartBit) (by omega) (by omega) with hy | ⟨hy, -⟩
      · exact hapart _ hq1 hq2 hy
      · rw [hb.bitsOf_mem hq hq1 hq2, bitAt_inside hq1 hq2, Nat.add_sub_cancel,
          Nat.sub_add_cancel h1, hset] at hy
        cases hy
    · rw [hr.bits]
      refine and_congr_right fun hset => not_congr ⟨fun h => ?_, fun h => h.2.2⟩
      refine ⟨?_, ?_, h⟩ <;> by_contra hno
      all_goals
        unfold Region.place at h
        have hk : r.place (k + r.brStartBit - r.brBitmapStart) = k := by unfold Region.place; omega
        rcases hfits (k + r.brStartBit - r.brBitmapStart) (by omega)
          (by omega) with hy | ⟨-, -, -, hy⟩
        · unfold Region.stop at hy
          unfold Region.brTotalBits at hno
          omega
        · rw [hk, Int.toNat_natCast, hset] at hy
          cases hy

end Exact

/-- A range is cleared as it should be exactly if the call is refused, or the search finds nothing,
    or the range fits the region that is found. -/
theorem clearRange_exact_iff {shape : Nat → RTree} (hshape : InOrder shape) {b : Bitmap}
    (hb : Good b.regions) (hstop : ∀ r ∈ b.regions, r.stop < 2 ^ 64) {len firstBit : Nat}
    (hlen : 1 ≤ len) (hfirst : firstBit < 2 ^ 64) (hlt : len < 2 ^ 64) :
    ClearsExactly len firstBit b (b.clearRange shape len firstBit) ↔
      (b.bTotalBits < (len + firstBit) % 2 ^ 64 ∨ ∀ i, (b.search shape firstBit len).1 = some i →
          RangeFits len firstBit b (b.regions.getD i default)) := by
  unfold clearRange
  by_cases hrej : b.bTotalBits < (len + firstBit) % 2 ^ 64
  · rw [if_pos (.inr hrej)]
    exact iff_of_true rfl (.inl hrej)
  rw [if_neg (by omega), or_iff_right hrej]
  cases hs : (b.search shape firstBit len).1 with
  | none => exact iff_of_true rfl nofun
  | some i =>
    simp only [Option.some.injEq, forall_eq']
    by_cases hwrap : firstBit + len < 2 ^ 64
    · rcases search_cases hshape hb hlen hwrap with ⟨P, r, S, heq, h1, h2, hs'⟩ |
        ⟨P, S, _, _, _, hs'⟩
      · rw [hs'] at hs
        cases hs
        have hget : b.regions.getD P.length default = r := by simp [heq]
        rw [hget, Nat.mod_eq_of_lt hwrap, Nat.add_sub_cancel_left]
        rcases clearRun_cases len firstBit r b heq with ⟨hnone, y, hy1, hy2, hy⟩ |
          ⟨hin, r', hrun, hr⟩
        · rw [hnone]
          refine iff_of_false id fun hfits => hy ?_
          rcases hfits.2 y hy1 hy2 with hy | hy
          · have := (hb.ok r (by simp [heq])).fits
            unfold Region.stop at hy
            unfold Region.brTotalBits at this
            unfold Region.place
            omega
          · exact ⟨hy.2.1, hy.2.2.1⟩
        · rw [hrun]
          exact swept_exact_iff hb heq hwrap hin hr
      · rw [hs'] at hs
        cases hs
    · -- the end is before the beginning, and nothing is cleared
      rw [show (firstBit + len) % 2 ^ 64 - firstBit = 0 by omega]
      refine iff_of_false (fun h => ?_) fun h => hwrap h.1
      have hlast := h.1 (2 ^ 64 - 1) (by omega) (by omega)
      refine hlast (bitsOf_eq_none.mpr fun r hr => .inr ?_)
      have := hstop r hr
      omega

/-- A wrapped range in a region with a set bit: the call succeeds and clears nothing. -/
theorem clearRange_wrapped :
    (⟨100, 0, [⟨0, 0, 8, 1, [128]⟩]⟩ : Bitmap).clearRange spine (2 ^ 64 - 4) 7 =
      some (.ok (), ⟨100, 0, [⟨0, 0, 8, 1, [128]⟩]⟩) := by decide

theorem clearRange_exact_inside : ClearsExactly 2 6 ⟨100, 0, [⟨0, 0, 8, 1, [128]⟩]⟩
    ((⟨100, 0, [⟨0, 0, 8, 1, [128]⟩]⟩ : Bitmap).clearRange spine 2 6) := by
  have hgood : Good [⟨0, 0, 8, 1, [128]⟩] := by
    refine ⟨List.pairwise_singleton _ _, fun r hr => ?_⟩
    rw [List.mem_singleton.mp hr]
    exact ⟨by decide, by decide, rfl, fun k hk hlt => absurd hk (Nat.not_le.mpr hlt)⟩
  refine (clearRange_exact_iff spine_inOrder hgood (by decide) (by decide)
    (by decide) (by decide)).mpr (.inr fun i hi => ⟨by decide, fun y h1 h2 => .inl ?_⟩)
  · obtain rfl : i = 0 := (Option.some.inj hi).symm
    exact ⟨Nat.zero_le _, h2⟩

end Ocfs2Tools.Bitmap
