import Ocfs2Tools.Bitmap.Regions

/-!
# Setting, clearing and testing a bit

What a call does is said about the bits of the whole list of regions, so that it makes no
difference in which region a bit lies, and whether regions were made or merged on the way.
-/

namespace Ocfs2Tools.Bitmap

open Bitops List
open ChainAlloc (RTree bump)

/-- The bit `x` has a region afterwards and is `v` in it. A bit without a region counts as clear. -/
structure Changed (v : Bool) (x : Nat) (l l' : List Region) : Prop where
  good : Good l'
  bits : ∀ y, bitsOf l' y = if y = x then some v else bitsOf l y
  setBits : setBitsOf l' + ((bitsOf l x).getD false).toNat = setBitsOf l + v.toNat
  stop : endOf l' = max (x + 1) (endOf l)

theorem Changed.trans {v w : Bool} {x : Nat} {l l' l'' : List Region} (h : Changed v x l l')
    (h' : Changed w x l' l'') : Changed w x l l'' := by
  refine ⟨h'.good, fun y => ?_, ?_, ?_⟩
  · rw [h'.bits, h.bits]
    split <;> rfl
  · have h1 := h.setBits
    have h2 := h'.setBits
    rw [h.bits, if_pos rfl, Option.getD_some] at h2
    omega
  · rw [h'.stop, h.stop]
    omega

section Lists

variable {P S : List Region} {r : Region} {x : Nat}

theorem modify_middle (f : Region → Region) : (P ++ r :: S).modify P.length f = P ++ f r :: S := by
  induction P with
  | nil => rfl
  | cons p P ih => exact congrArg (p :: ·) ih

theorem bitsOf_middle (h : Good (P ++ r :: S)) (h1 : r.brStartBit ≤ x) (h2 : x < r.stop) :
    bitsOf P x = none ∧ bitsOf (P ++ r :: S) x = r.bitAt x := by
  have hP : bitsOf P x = none := by
    rw [bitsOf_eq_none]
    intro p hp
    have := h.around.1 p hp
    omega
  refine ⟨hP, ?_⟩
  rw [bitsOf_append, hP, bitsOf_cons, bitAt_inside h1 h2]
  rfl

theorem endOf_concat (l : List Region) (r : Region) : endOf (l ++ [r]) = r.stop := by
  rw [endOf, getLast?_concat]
  rfl

theorem Good.stop_le {l : List Region} (h : Good l) (hr : r ∈ l) : r.stop ≤ endOf l := by
  obtain ⟨P, S, rfl⟩ := append_of_mem hr
  rcases eq_nil_or_concat' S with rfl | ⟨S, z, rfl⟩
  · simp [endOf]
  · have h1 := h.around.2.1 z (by simp)
    have h2 := (h.ok z (by simp)).lt_stop
    rw [← cons_append, ← append_assoc, endOf_concat]
    omega

end Lists

/-! ### New regions -/

section Alloc

variable {n : Nat}

theorem testBit_replicate (n k : Nat) : testBit k (List.replicate n 0) = false := by
  have hz : (List.replicate n (0 : UInt8)).getD (k / 8) 0 = 0 := by
    rw [getD_eq_getElem?_getD, getElem?_replicate]
    split <;> rfl
  rw [testBit_eq, hz]
  exact Nat.zero_testBit _

theorem allocRegion_ok (start : Nat) (hpos : 0 < n) (hn : n + 7 ≤ intMax) :
    (allocRegion start 0 n).Ok :=
  ⟨hpos, hn, length_replicate, fun k _ _ => testBit_replicate _ k⟩

theorem bitAt_allocRegion (start x : Nat) : (allocRegion start 0 n).bitAt x =
    if start ≤ x ∧ x < start + n then some false else none := by
  change (if start ≤ x ∧ x < start + n then some _ else none) = _
  rw [allocRegion, testBit_replicate]

end Alloc

/-! ### A bit of a region -/

section Change

variable {r : Region} {nr : Nat} {v : Bool}

theorem testBit_change (hnr : nr < 8 * r.brBitmap.length) (k : Nat) :
    testBit k (r.change v nr).brBitmap = if k = nr then v else testBit k r.brBitmap := by
  cases v
  · refine (testBit_clearBit hnr k).trans ?_
    split <;> simp_all
  · refine (testBit_setBit hnr k).trans ?_
    split <;> simp_all

theorem length_change : (r.change v nr).brBitmap.length = r.brBitmap.length := by
  cases v
  · exact length_clearBit nr _
  · exact length_setBit nr _

theorem Region.Ok.change (h : r.Ok) (hnr : nr < r.brTotalBits) : (r.change v nr).Ok := by
  refine ⟨h.pos, h.small, length_change.trans h.bytes, fun k hk _ => ?_⟩
  have hk : r.brTotalBits ≤ k := hk
  rw [testBit_change (lt_of_lt_of_le hnr h.fits), if_neg (by omega)]
  exact h.behind hk

theorem changed_middle {P S : List Region} {x : Nat} (h : Good (P ++ r :: S))
    (h1 : r.brStartBit ≤ x) (h2 : x < r.stop) :
    Changed v x (P ++ r :: S) (P ++ r.change v (x - r.brStartBit + r.brBitmapStart) :: S) := by
  have hr := h.ok r (by simp)
  have hin : x - r.brStartBit + r.brBitmapStart < r.brTotalBits := by
    unfold Region.stop at h2
    unfold Region.brTotalBits
    omega
  have hfit := lt_of_lt_of_le hin hr.fits
  obtain ⟨hP, hmid⟩ := bitsOf_middle h h1 h2
  rw [bitAt_inside h1 h2] at hmid
  generalize hr' : r.change v (x - r.brStartBit + r.brBitmapStart) = r'
  have hstart : r'.brStartBit = r.brStartBit := by rw [← hr']; rfl
  have hstop : r'.stop = r.stop := by rw [← hr']; rfl
  have hbit : ∀ y, r'.bitAt y = if y = x then some v else r.bitAt y := by
    intro y
    unfold Region.bitAt
    rw [hstart, hstop, ← hr', testBit_change hfit]
    change (if _ then some (if y - r.brStartBit + r.brBitmapStart = _ then v else _) else none) = _
    by_cases hy : y = x
    · rw [if_pos hy, if_pos (by omega), if_pos (by rw [hy])]
    · split
      · rw [if_neg (by omega)]
        rfl
      · rfl
  obtain ⟨hbefore, hbehind, hrest⟩ := h.around
  refine ⟨hrest.insert (hr' ▸ hr.change hin) (hstart ▸ hbefore) (hstop ▸ hbehind), fun y => ?_, ?_,
    ?_⟩
  · rw [bitsOf_append, bitsOf_append, bitsOf_cons, bitsOf_cons, hbit]
    split
    · next hy => rw [hy, hP]; rfl
    · rfl
  · rw [hmid]
    simp only [setBitsOf, map_append, map_cons, sum_append, sum_cons, ← hr', Region.change]
    cases v <;> cases testBit (x - r.brStartBit + r.brBitmapStart) r.brBitmap <;> simp <;> omega
  · have := h.stop_le (r := r) (by simp)
    have hend : endOf (P ++ r' :: S) = endOf (P ++ r :: S) := by
      unfold endOf
      cases S with
      | nil => simp [hstop]
      | cons => simp
    omega

end Change

/-! ### A bit of the bitmap -/

section Calls

variable {shape : Nat → RTree} {kind : Kind} {b : Bitmap} {x : Nat} {v : Bool}
  (hshape : InOrder shape) (hb : Good b.regions) (hx : x + 1 < 2 ^ 64)
include hshape hb hx

theorem changeGeneric_cases :
    (bitsOf b.regions x = none ∧ changeGeneric shape v x b = some (.error .invalidBit, b)) ∨
    ∃ old l', bitsOf b.regions x = some old ∧ Changed v x b.regions l' ∧
      changeGeneric shape v x b = some (.ok old, { b with regions := l' }) := by
  unfold changeGeneric
  rcases search_cases hshape hb Nat.one_pos hx with
    ⟨P, r, S, heq, h1, h2, hs⟩ | ⟨P, S, heq, h1, h2, hs⟩
  · right
    have h1 : r.brStartBit ≤ x := Nat.lt_succ_iff.mp h1
    rw [heq] at hb
    have hfit := (hb.ok r (by simp)).fits
    refine ⟨_, _, by rw [heq, (bitsOf_middle hb h1 h2).2, bitAt_inside h1 h2],
      heq ▸ changed_middle hb h1 h2, ?_⟩
    have hget : b.regions.getD P.length default = r := by simp [heq]
    have hnr : (x : Int) - r.brStartBit + r.brBitmapStart =
        ((x - r.brStartBit + r.brBitmapStart : Nat)) := by omega
    unfold Region.stop at h2
    unfold Region.brTotalBits at hfit
    rw [hs]
    change (changeShared v P.length x b).map _ = _
    rw [changeShared, hget, hnr, if_pos (by omega), Int.toNat_natCast, heq, Option.map_some,
      modify_middle]
  · left
    rw [hs]
    refine ⟨?_, rfl⟩
    rw [heq, bitsOf_append, bitsOf_eq_none.mpr fun r hr => .inr (h1 r hr),
      bitsOf_eq_none.mpr fun r hr => .inl (h2 r hr)]
    rfl

theorem bitmapTest_eq (hlt : x < b.bTotalBits) : bitmapTest shape kind x b =
    match bitsOf b.regions x with
    | some v => .ok v
    | none => if kind = .block then .ok false else .error .invalidBit := by
  unfold bitmapTest
  rw [if_neg (not_le.mpr hlt)]
  rcases search_cases hshape hb Nat.one_pos hx with
    ⟨P, r, S, heq, h1, h2, hs⟩ | ⟨P, S, heq, h1, h2, hs⟩
  · have h1 : r.brStartBit ≤ x := Nat.lt_succ_iff.mp h1
    rw [heq] at hb
    have hget : b.regions.getD P.length default = r := by simp [heq]
    rw [hs, heq, (bitsOf_middle hb h1 h2).2, bitAt_inside h1 h2, ← heq]
    dsimp only
    rw [hget]
  · rw [hs, heq, bitsOf_append, bitsOf_eq_none.mpr fun r hr => .inr (h1 r hr),
      bitsOf_eq_none.mpr fun r hr => .inl (h2 r hr)]
    rfl

theorem insertRegion_bit (kind : Kind) (hnone : bitsOf b.regions x = none)
    (hle : x ≤ b.bTotalBits) :
    ∃ l', Changed false x b.regions l' ∧
      insertRegion shape kind (allocRegion x 0 1) b = (.ok (), { b with regions := l' }) := by
  rcases @insertRegion_cases shape b kind _ hshape hb (allocRegion_ok x Nat.one_pos (by decide)) hx
    with ⟨hlt | ⟨r, hr, h1, h2⟩, -⟩ | ⟨P, S, heq, hgood, hins⟩
  · exact absurd hle (not_le.mpr hlt)
  · have := bitsOf_eq_none.mp hnone r hr
    change r.brStartBit < x + 1 at h1
    change x < r.stop at h2
    omega
  · have h1 : ∀ p ∈ P, p.stop ≤ x := hgood.around.1
    have h2 : ∀ s ∈ S, x + 1 ≤ s.brStartBit := hgood.around.2.1
    rw [heq] at hb
    have hsame : Same (P ++ allocRegion x 0 1 :: S)
        (linkRegion (kind != .chain) b.bTotalBits P (allocRegion x 0 1) S) :=
      (linkRegion_joined P (allocRegion x 0 1) S).same hgood
    refine ⟨_, ⟨hsame.good, fun y => ?_, ?_, ?_⟩, hins⟩
    · rw [hsame.bits, heq, bitsOf_append, bitsOf_append, bitsOf_cons, bitAt_allocRegion]
      by_cases hy : y = x
      · rw [if_pos (by omega), if_pos hy, hy, bitsOf_eq_none.mpr fun r hr => .inr (h1 r hr)]
        rfl
      · rw [if_neg (by omega), if_neg hy, Option.none_or]
    · rw [hsame.setBits, hnone, heq]
      simp [setBitsOf, allocRegion]
    · rw [hsame.stop, heq]
      rcases eq_nil_or_concat' S with rfl | ⟨S, z, rfl⟩
      · have hP : endOf P ≤ x := by
          rcases eq_nil_or_concat' P with rfl | ⟨P, z, rfl⟩
          · exact Nat.zero_le _
          · rw [endOf_concat]
            exact h1 z (by simp)
        rw [endOf_concat, append_nil]
        exact (max_eq_left (Nat.le_succ_of_le hP)).symm
      · have hz := h2 z (by simp)
        have hlt := (hb.ok z (by simp)).lt_stop
        rw [← cons_append, ← append_assoc, ← append_assoc, endOf_concat, endOf_concat]
        omega

end Calls

/-- What setting or clearing a bit does. It is refused for a bit behind the end, and for one
    without a region if the bitmap has no holes; clearing a bit without a region counts what
    was in the variable. -/
theorem bitmapChange_cases {shape : Nat → RTree} {kind : Kind} {b : Bitmap} {x : Nat} {v : Bool}
    (hshape : InOrder shape) (hb : Good b.regions) (htotal : b.bTotalBits < 2 ^ 64) (junk : Bool) :
    ((b.bTotalBits ≤ x ∨ kind ≠ .block ∧ bitsOf b.regions x = none) ∧
      bitmapChange shape kind junk v x b = some (.error .invalidBit, b)) ∨
    ∃ l', x < b.bTotalBits ∧ (kind = .block ∨ bitsOf b.regions x ≠ none) ∧
      Changed v x b.regions l' ∧ bitmapChange shape kind junk v x b = some (.ok (), { b with
        regions := l'
        bSetBits := if (bitsOf b.regions x).getD (!v && junk) = v then b.bSetBits
          else bump 64 b.bSetBits v }) := by
  unfold bitmapChange
  by_cases hlt : b.bTotalBits ≤ x
  · exact .inl ⟨.inl hlt, if_pos hlt⟩
  rw [if_neg hlt]
  have hx : x + 1 < 2 ^ 64 := by omega
  have hlt := not_le.mp hlt
  rcases changeGeneric_cases hshape hb hx with ⟨hnone, heq⟩ | ⟨old, l', hold, hch, heq⟩
  · by_cases hk : kind = .block
    · right
      obtain ⟨l₁, hch, hins⟩ :=
        insertRegion_bit hshape hb hx kind hnone (le_of_lt hlt)
      rw [if_pos hk, changeHoles, heq, hnone]
      rw [hins]
      cases v
      · refine ⟨l₁, hlt, .inl hk, hch, ?_⟩
        cases junk <;> simp
      · rcases changeGeneric_cases (b := { b with regions := l₁ }) hshape hch.good hx
          with ⟨hnone', _⟩ | ⟨old, l₂, hold, hch', heq'⟩
        · rw [hch.bits, if_pos rfl] at hnone'
          cases hnone'
        · rw [hch.bits, if_pos rfl] at hold
          cases hold
          refine ⟨l₂, hlt, .inl hk, hch.trans hch', ?_⟩
          dsimp only
          rw [heq']
          simp
    · left
      rw [if_neg hk, heq]
      exact ⟨.inr ⟨hk, hnone⟩, rfl⟩
  · right
    refine ⟨l', hlt, .inr (by simp [hold]), hch, ?_⟩
    have : (if kind = .block then changeHoles shape kind junk v x b
        else changeGeneric shape v x b) = some (.ok old, { b with regions := l' }) := by
      split
      · rw [changeHoles, heq]
      · exact heq
    rw [this, hold]
    dsimp only [Option.getD_some]
    split <;> rfl

end Ocfs2Tools.Bitmap
