import Ocfs2Tools.Bitmap.Bits

/-!
# Allocating a range

The regions are searched in order. In a region the first run of clear bits that has `len` of
them is taken, and else the longest one, if it has `min`. No other region is tried then, also if
it has a longer run.
-/

namespace Ocfs2Tools.Bitmap

open Bitops
open ChainAlloc (searchRun)

/-! ### The regions -/

/-- `br_set_bits` is right. -/
def Region.CountsItself (r : Region) : Prop := r.brSetBits =
  ((Finset.range r.brValidBits).filter fun k => testBit (r.brBitmapStart + k) r.brBitmap).card

variable {r : Region} {min len : Nat}

theorem alloc_found (h : r.Ok) (hcount : r.CountsItself) (hmin : 0 < min) (hml : min ≤ len) :
    ∃ run, (if 0 ≤ (r.brValidBits : Int) - r.brSetBits ∧ (r.brValidBits : Int) - r.brSetBits < min
      then none else searchRun r.brBitmap r.brTotalBits min len (r.brTotalBits + 1) r.brBitmapStart
        none) = run ∧ Found r.brBitmap r.brTotalBits min len r.brBitmapStart run := by
  refine ⟨_, rfl, ?_⟩
  have hsplit := Finset.card_filter_add_card_filter_not (s := Finset.range r.brValidBits)
    fun k => testBit (r.brBitmapStart + k) r.brBitmap = true
  unfold Region.CountsItself at hcount
  rw [Finset.card_range] at hsplit
  split
  · intro a z h1 h2 hclear
    have hsub : Finset.Ico (a - r.brBitmapStart) (z - r.brBitmapStart) ⊆
        (Finset.range r.brValidBits).filter fun k =>
          ¬testBit (r.brBitmapStart + k) r.brBitmap = true := by
      intro k hk
      unfold Region.brTotalBits at h2
      rw [Finset.mem_Ico] at hk
      rw [Finset.mem_filter, Finset.mem_range, hclear _ (by omega) (by omega)]
      exact ⟨by omega, nofun⟩
    have := Finset.card_le_card hsub
    rw [Nat.card_Ico] at this
    omega
  · have hsmall := h.small
    have hmax : intMax < 2 ^ 31 := by decide
    have htotal : r.brTotalBits = r.brValidBits + r.brBitmapStart := rfl
    exact searchRun_found h.fits h.tail hmin hml (by omega) _ _ none (le_refl _) (by omega)
      (by omega) (by omega) nofun fun a z h1 _ _ _ => .inr h1

variable {P S : List Region}

theorem setRun_bits : ∀ count nr r, Good (P ++ r :: S) → r.brBitmapStart ≤ nr →
    nr + count ≤ r.brTotalBits → ∀ y, bitsOf (P ++ r.setRun nr count :: S) y =
      if r.brStartBit + nr - r.brBitmapStart ≤ y ∧ y < r.brStartBit + nr - r.brBitmapStart + count
      then some true else bitsOf (P ++ r :: S) y := by
  intro count
  induction count with
  | zero =>
    intro nr r _ _ _ y
    rw [if_neg (by omega)]
    rfl
  | succ count ih =>
    intro nr r hgood h1 h2 y
    have hstop : r.stop + r.brBitmapStart = r.brStartBit + r.brTotalBits := by
      unfold Region.stop Region.brTotalBits
      omega
    have hch := changed_middle (v := true) (x := r.brStartBit + nr - r.brBitmapStart) hgood
        (by omega)
      (by omega)
    rw [show r.brStartBit + nr - r.brBitmapStart - r.brStartBit + r.brBitmapStart =
      nr by omega] at hch
    have hrest := ih (nr + 1) _ hch.good (Nat.le_succ_of_le h1) (add_right_comm nr 1 _ ▸ h2) y
    rw [show (r.change true nr).brStartBit = r.brStartBit from rfl,
      show (r.change true nr).brBitmapStart = r.brBitmapStart from rfl, hch.bits] at hrest
    rw [Region.setRun, hrest]
    by_cases hy : y = r.brStartBit + nr - r.brBitmapStart
    · rw [if_pos hy, if_neg (by omega), if_pos (by omega)]
    · rw [if_neg hy]
      exact if_congr (by omega) rfl rfl

def ClearRun (r : Region) (a n : Nat) : Prop := r.brStartBit ≤ a ∧ a + n ≤ r.stop ∧
  ∀ y, a ≤ y → y < a + n → r.bitAt y = some false

theorem clearRun_iff (a n : Nat) (ha : r.brStartBit ≤ a) (hn : 0 < n) : ClearRun r a n ↔
    a - r.brStartBit + r.brBitmapStart + n ≤ r.brTotalBits ∧ Clear r.brBitmap
      (a - r.brStartBit + r.brBitmapStart) (a - r.brStartBit + r.brBitmapStart + n) := by
  unfold ClearRun Region.stop Region.brTotalBits
  constructor
  · rintro ⟨-, h2, h3⟩
    refine ⟨by omega, fun k hk1 hk2 => ?_⟩
    have := h3 (k + r.brStartBit - r.brBitmapStart) (by omega) (by omega)
    rw [bitAt_inside (by omega) (by unfold Region.stop; omega), Option.some.injEq] at this
    rwa [show k + r.brStartBit - r.brBitmapStart - r.brStartBit + r.brBitmapStart =
      k by omega] at this
  · rintro ⟨h2, h3⟩
    refine ⟨ha, by omega, fun y hy1 hy2 => ?_⟩
    rw [bitAt_inside (by omega) (by unfold Region.stop; omega), h3 _ (by omega) (by omega)]

/-- What `ocfs2_bitmap_alloc_range` should do: find a run in the first region that has one, the
    longest there or one of `len` bits, and set it. -/
def AllocsRun (min len : Nat) (b : Bitmap) : Except BitmapError (Nat × Nat) × Bitmap → Prop
  | (.ok (firstBit, bitsFound), b') => ∃ P r S, b.regions = P ++ r :: S ∧
      (∀ q ∈ P, ∀ a n, ClearRun q a n → n < min) ∧ ClearRun r firstBit bitsFound ∧
      min ≤ bitsFound ∧ bitsFound ≤ len ∧
      (bitsFound = len ∨ ∀ a n, ClearRun r a n → n ≤ bitsFound) ∧
      ∀ y, bitsOf b'.regions y = if firstBit ≤ y ∧ y < firstBit + bitsFound then some true
        else bitsOf b.regions y
  | (.error e, b') => e = .bitNotFound ∧ b' = b ∧ ∀ r ∈ b.regions, ∀ a n, ClearRun r a n → n < min

theorem allocRangeIn_cases (hmin : 0 < min) (hml : min ≤ len) : ∀ l : List Region,
    (∀ r ∈ l, r.Ok ∧ r.CountsItself) →
    (allocRangeIn min len l = none ∧ ∀ r ∈ l, ∀ a n, ClearRun r a n → n < min) ∨
    ∃ P r S a z, l = P ++ r :: S ∧ (∀ q ∈ P, ∀ a n, ClearRun q a n → n < min) ∧
      Found r.brBitmap r.brTotalBits min len r.brBitmapStart (some (a, z)) ∧
      allocRangeIn min len l = some (r.brStartBit + a - r.brBitmapStart, z - a,
        P ++ r.setRun a (z - a) :: S)
  | [], _ => .inl ⟨rfl, nofun⟩
  | r :: l, h => by
    have hr := h r (by simp)
    obtain ⟨run, heq, hfound⟩ := alloc_found hr.1 hr.2 hmin hml
    rw [allocRangeIn, heq]
    cases run with
    | some run => exact .inr ⟨[], r, l, run.1, run.2, rfl, nofun, hfound, rfl⟩
    | none =>
      have hno : ∀ a n, ClearRun r a n → n < min := by
        intro a n hrun
        by_contra hge
        obtain ⟨h1, h2⟩ := (clearRun_iff a n hrun.1 (by omega)).mp hrun
        have := hfound _ _ (Nat.le_add_left _ _) h1 h2
        omega
      rcases allocRangeIn_cases hmin hml l fun q hq => h q (by simp [hq]) with
        ⟨heq, hrest⟩ | ⟨P, q, S, a, z, rfl, hP, hq, heq⟩
      · exact .inl ⟨by rw [heq]; rfl, List.forall_mem_cons.mpr ⟨hno, hrest⟩⟩
      · exact .inr ⟨r :: P, q, S, a, z, rfl, List.forall_mem_cons.mpr ⟨hno, hP⟩, hq,
          by rw [heq]; rfl⟩

/-- **Allocation of a range**, for arguments that are not refused. -/
theorem allocRange_allocsRun {b : Bitmap} (hb : Good b.regions)
    (hcount : ∀ r ∈ b.regions, r.CountsItself) (hmin : 0 < min) (hml : min ≤ len)
    (hlen : len < b.bTotalBits) : AllocsRun min len b (b.allocRange min len) := by
  unfold allocRange
  rw [if_neg (by omega)]
  rcases allocRangeIn_cases hmin hml b.regions fun r hr => ⟨hb.ok r hr, hcount r hr⟩ with
    ⟨heq, hno⟩ | ⟨P, r, S, a, z, hl, hP, ⟨h1, h2, h3, h4, hclear, hmax⟩, heq⟩
  · rw [heq]
    exact ⟨rfl, rfl, hno⟩
  · have hpos : r.brStartBit + a - r.brBitmapStart - r.brStartBit + r.brBitmapStart = a := by omega
    have hrun := (clearRun_iff (r := r) (r.brStartBit + a - r.brBitmapStart) (z - a) (by omega)
      (by omega)).mpr (by rw [hpos, show a + (z - a) = z by omega]; exact ⟨h2, hclear⟩)
    rw [heq]
    refine ⟨P, r, S, hl, hP, hrun, by omega, by omega,
      hmax.imp (by omega) fun hmax a' n hrun' => ?_,
      fun y => ?_⟩
    · rcases Nat.eq_zero_or_pos n with rfl | hn
      · exact Nat.zero_le _
      · obtain ⟨h1, h2⟩ := (clearRun_iff a' n hrun'.1 hn).mp hrun'
        have := hmax _ _ (Nat.le_add_left _ _) h1 h2
        omega
    · rw [hl] at hb ⊢
      exact setRun_bits _ a r hb h1 (by omega) y

/-- All of a bitmap cannot be asked for. -/
theorem allocRange_whole : ClearRun (allocRegion 0 0 8) 0 8 ∧
    (⟨8, 0, [allocRegion 0 0 8]⟩ : Bitmap).allocRange 1 8 =
      (.error .invalidArgument, ⟨8, 0, [allocRegion 0 0 8]⟩) :=
  ⟨⟨by decide, by decide, fun y _ hy => (bitAt_allocRegion 0 y).trans (if_pos ⟨Nat.zero_le y, hy⟩)⟩,
    by decide⟩

/-- A region whose clear bits stand alone, and one that starts inside its bitmap and has a run of
    two clear bits and one of three. -/
def twoRegions : Bitmap := ⟨18, 7, [⟨0, 0, 8, 4, [0x55]⟩, ⟨10, 2, 8, 3, [0x10, 0x03]⟩]⟩

/-- The first region has no two bits, and no run has four: the longest one is taken. -/
theorem allocRange_allocsRun_second : AllocsRun 2 4 twoRegions (twoRegions.allocRange 2 4) ∧
    (twoRegions.allocRange 2 4).1.toOption = some (13, 3) := by
  have hgood : Good twoRegions.regions := by
    refine ⟨by simp [Sorted, twoRegions, Region.stop], fun r hr => ?_⟩
    simp only [twoRegions, List.mem_cons, List.not_mem_nil, or_false] at hr
    rcases hr with rfl | rfl
    · exact ⟨by decide, by decide, by decide, fun x h1 h2 => absurd h1 (Nat.not_le.mpr h2)⟩
    · refine ⟨by decide, by decide, by decide, ?_⟩
      have htail : ∀ x, x < 16 → 10 ≤ x → testBit x [0x10, 0x03] = false := by decide
      exact fun x h1 h2 => htail x h2 h1
  have hcount : ∀ r ∈ twoRegions.regions, r.CountsItself := by
    unfold Region.CountsItself
    decide
  exact ⟨allocRange_allocsRun hgood hcount (by decide) (by decide) (by decide), by decide⟩

end Ocfs2Tools.Bitmap
