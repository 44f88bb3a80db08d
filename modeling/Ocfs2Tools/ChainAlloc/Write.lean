import Ocfs2Tools.ChainAlloc.Model

/-!
# Writing a region back to its group

A region does not begin and end at a byte of its group's bitmap. `chainalloc_write_group`
takes the bits around the region from the group before it copies whole bytes, so of the
group's bitmap just the bits of the region change.
-/

namespace Ocfs2Tools.ChainAlloc

open List Bitops

variable {offset j : Nat}

theorem testBit_lowMask (h : offset ≤ 8) (j : Nat) :
    (lowMask offset).toNat.testBit j = decide (j < offset) := by
  have hle : 255 >>> (8 - offset) ≤ 255 := Nat.shiftRight_le _ _
  rw [lowMask, UInt8.toNat_ofNat', Nat.mod_eq_of_lt (by omega), Nat.testBit_shiftRight,
    show 255 = 2 ^ 8 - 1 from rfl, Nat.testBit_two_pow_sub_one, decide_eq_decide]
  omega

theorem testBit_highMask (offset j : Nat) :
    (highMask offset).toNat.testBit j = (decide (offset ≤ j) && decide (j < 8)) := by
  rw [highMask, UInt8.toNat_ofNat', Nat.testBit_mod_two_pow, Nat.testBit_shiftLeft,
    show 255 = 2 ^ 8 - 1 from rfl, Nat.testBit_two_pow_sub_one]
  by_cases h8 : j < 8
  · by_cases hle : offset ≤ j
    · simp [h8, hle, (by omega : j - offset < 8)]
    · simp [h8, hle]
  · simp [h8]

theorem testBit_masked (x y : UInt8) (hoff : offset ≤ 8) (hj : j < 8) :
    ((x &&& highMask offset) ||| (y &&& lowMask offset)).toNat.testBit j =
      if j < offset then y.toNat.testBit j else x.toNat.testBit j := by
  rw [UInt8.toNat_or, UInt8.toNat_and, UInt8.toNat_and, Nat.testBit_or, Nat.testBit_and,
    Nat.testBit_and, testBit_highMask, testBit_lowMask hoff]
  by_cases hlt : j < offset
  · simp [hlt]
  · simp [hlt, not_lt.mp hlt, hj]

section Region

variable {r : Region} {gbm bm : List UInt8} {dst src : List UInt8} {at_ : Nat}

theorem brBitmapStart_le (r : Region) : r.brBitmapStart ≤ 8 :=
  le_of_lt (Nat.mod_lt _ (by decide))

theorem testBit_mergeHead (hlen : 0 < bm.length) (k : Nat) : testBit k (mergeHead r gbm bm) =
      if k < r.brBitmapStart then testBit (r.bitOffset / 8 * 8 + k) gbm else testBit k bm := by
  have hdef : r.brBitmapStart = r.bitOffset % 8 := rfl
  unfold mergeHead
  split
  · rw [if_neg (by omega)]
  · have hmod := testBit_modify bm 0 (g := fun b j => if j < r.bitOffset % 8 then
        (gbm.getD (r.bitOffset / 8) 0).toNat.testBit j else b)
      (fun x j hj => testBit_masked x (gbm.getD (r.bitOffset / 8) 0) (brBitmapStart_le r) hj)
      (by omega) k
    refine hmod.trans ?_
    by_cases hk : k < r.brBitmapStart
    · rw [if_pos (by omega), if_pos (by omega), if_pos hk, testBit_eq,
        show (r.bitOffset / 8 * 8 + k) / 8 = r.bitOffset / 8 by omega,
        show (r.bitOffset / 8 * 8 + k) % 8 = k % 8 by omega]
    · split
      · rw [if_neg (by omega)]
      · rfl

theorem testBit_mergeTail (hlen : bm.length = r.brBytes) (k : Nat) :
    testBit k (mergeTail r gbm bm) =
      if r.brTotalBits ≤ k ∧ k < 8 * r.brBytes then testBit (r.bitOffset / 8 * 8 + k) gbm
      else testBit k bm := by
  have hbytes : r.brBytes = (r.brTotalBits + 7) / 8 := rfl
  have htotal : r.brTotalBits = r.brValidBits + r.bitOffset % 8 := rfl
  unfold mergeTail
  split
  · rw [if_neg (by omega)]
  · have hmod := testBit_modify bm r.brTotalBits
      (g := fun b j => if j < (r.bitOffset + r.brValidBits) % 8 then b else
        (gbm.getD ((r.bitOffset + r.brValidBits) / 8) 0).toNat.testBit j)
      (f := fun b => (b &&& lowMask ((r.bitOffset + r.brValidBits) % 8)) |||
        (gbm.getD ((r.bitOffset + r.brValidBits) / 8) 0 &&&
          highMask ((r.bitOffset + r.brValidBits) % 8)))
      (fun x j hj => by
        rw [UInt8.or_comm]
        exact testBit_masked _ x (le_of_lt (Nat.mod_lt _ (by decide))) hj)
      (by omega) k
    refine hmod.trans ?_
    by_cases hk : r.brTotalBits ≤ k ∧ k < 8 * r.brBytes
    · rw [if_pos (by omega), if_neg (by omega), if_pos hk, testBit_eq,
        show (r.bitOffset / 8 * 8 + k) / 8 = (r.bitOffset + r.brValidBits) / 8 by omega,
        show (r.bitOffset / 8 * 8 + k) % 8 = k % 8 by omega]
    · split
      · rw [if_pos (by omega)]
      · rfl

theorem length_mergeHead : (mergeHead r gbm bm).length = bm.length := by
  unfold mergeHead
  split
  · rfl
  · exact length_modify _ _ _

theorem length_mergeTail : (mergeTail r gbm bm).length = bm.length := by
  unfold mergeTail
  split
  · rfl
  · exact length_modify _ _ _

theorem length_copyBytes (h : at_ + src.length ≤ dst.length) :
    (copyBytes dst at_ src).length = dst.length := by
  simp only [copyBytes, length_append, length_take, length_drop]
  omega

theorem testBit_copyBytes (h : at_ + src.length ≤ dst.length) (p : Nat) :
    testBit p (copyBytes dst at_ src) =
      if 8 * at_ ≤ p ∧ p < 8 * (at_ + src.length) then testBit (p - 8 * at_) src
      else testBit p dst := by
  have htake : (dst.take at_).length = at_ := by
    rw [length_take]
    omega
  rw [testBit_eq, copyBytes, getD_eq_getElem?_getD]
  by_cases hlow : p / 8 < at_
  · rw [if_neg (by omega), testBit_eq, getElem?_append_left (by simp [htake]; omega),
      getElem?_append_left (by omega), getElem?_take_of_lt hlow,
      getD_eq_getElem?_getD]
  · by_cases hmid : p / 8 < at_ + src.length
    · rw [if_pos (by omega), testBit_eq, getElem?_append_left (by simp [htake]; omega),
        getElem?_append_right (by omega), htake, getD_eq_getElem?_getD,
        show (p - 8 * at_) / 8 = p / 8 - at_ by omega, show (p - 8 * at_) % 8 = p % 8 by omega]
    · rw [if_neg (by omega), testBit_eq,
        getElem?_append_right (by simp only [length_append, htake]; omega),
        getElem?_drop, length_append, htake, getD_eq_getElem?_getD,
        show at_ + src.length + (p / 8 - (at_ + src.length)) = p / 8 by omega]

/-- The buffer that `chainalloc_write_group` copies to the group. -/
def merged (r : Region) (gbm bm : List UInt8) : List UInt8 := mergeTail r gbm (mergeHead r gbm bm)

theorem length_merged : (merged r gbm bm).length = bm.length :=
  length_mergeTail.trans length_mergeHead

theorem Region.brBytes_pos (h : 0 < r.brValidBits) : 0 < r.brBytes := by
  have hbytes : r.brBytes = (r.brTotalBits + 7) / 8 := rfl
  have htotal : r.brTotalBits = r.brValidBits + r.brBitmapStart := rfl
  omega

theorem testBit_merged (hpos : 0 < r.brValidBits) (hlen : bm.length = r.brBytes)
    (hj : j < r.brValidBits) :
    testBit (r.brBitmapStart + j) (merged r gbm bm) = testBit (r.brBitmapStart + j) bm := by
  have htotal : r.brTotalBits = r.brValidBits + r.brBitmapStart := rfl
  rw [merged, testBit_mergeTail (length_mergeHead.trans hlen), if_neg (by omega),
    testBit_mergeHead (by rw [hlen]; exact Region.brBytes_pos hpos), if_neg (by omega)]

theorem testBit_written (hpos : 0 < r.brValidBits) (hlen : bm.length = r.brBytes)
    (hfit : r.bitOffset / 8 + r.brBytes ≤ gbm.length) (p : Nat) :
    testBit p (copyBytes gbm (r.bitOffset / 8) (merged r gbm bm)) =
      if r.bitOffset ≤ p ∧ p < r.bitOffset + r.brValidBits
      then testBit (p - r.bitOffset + r.brBitmapStart) bm else testBit p gbm := by
  have hbytes : r.brBytes = (r.brTotalBits + 7) / 8 := rfl
  have htotal : r.brTotalBits = r.brValidBits + r.bitOffset % 8 := rfl
  have hstart : r.brBitmapStart = r.bitOffset % 8 := rfl
  have hmlen : (merged r gbm bm).length = r.brBytes := length_merged.trans hlen
  rw [testBit_copyBytes (by rw [hmlen]; exact hfit), hmlen]
  split
  · rw [merged, testBit_mergeTail (length_mergeHead.trans hlen),
      testBit_mergeHead (by rw [hlen]; exact Region.brBytes_pos hpos),
      show r.bitOffset / 8 * 8 + (p - 8 * (r.bitOffset / 8)) = p by omega]
    by_cases hbit : r.bitOffset ≤ p ∧ p < r.bitOffset + r.brValidBits
    · rw [if_neg (by omega), if_neg (by omega), if_pos hbit,
        show p - 8 * (r.bitOffset / 8) = p - r.bitOffset + r.brBitmapStart by omega]
    · split
      · rfl
      · rw [if_pos (by omega)]
  · rw [if_neg (by omega)]

end Region

end Ocfs2Tools.ChainAlloc
