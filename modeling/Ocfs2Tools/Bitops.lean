import Mathlib

/-!
# Bit arrays: `bitops.c`

A bit array is a list of bytes, bit `nr` being bit `nr % 8` of byte `nr / 8`. The
functions are those of `bitops.c`; `flipBit` is not one of them but what happens to a
bit that goes wrong on disk.
-/

namespace Ocfs2Tools.Bitops

open List

variable {x r lo hi b m size offset : Nat}

/-- `1 << (nr & 0x07)`. -/
def mask (nr : Nat) : UInt8 := UInt8.ofNat (2 ^ (nr % 8))

def testBit (nr : Nat) (addr : List UInt8) : Bool := mask nr &&& addr.getD (nr / 8) 0 != 0

def setBit (nr : Nat) (addr : List UInt8) : List UInt8 := addr.modify (nr / 8) (· ||| mask nr)

def clearBit (nr : Nat) (addr : List UInt8) : List UInt8 := addr.modify (nr / 8) (· &&& ~~~ mask nr)

def flipBit (nr : Nat) (addr : List UInt8) : List UInt8 := addr.modify (nr / 8) (· ^^^ mask nr)

/-- `ffs` of the C library: one more than the place of the lowest bit set, or zero. -/
def ffs (x : Nat) : Nat :=
  match (List.range 32).find? fun i => x.testBit i with
  | some i => i + 1
  | none => 0

/-- The loop over zero bytes of `ocfs2_find_next_bit_set`. -/
def skipZero (addr : List UInt8) (size : Nat) : Nat → Nat → Nat
  | 0, res => res
  | fuel + 1, res =>
    if res < size ∧ addr.getD (res / 8) 0 = 0 then skipZero addr size fuel (res + 8) else res

def findNextBitSet (addr : List UInt8) (size offset : Nat) : Nat :=
  if size = 0 then 0
  else
    let bit := offset % 8
    let res := offset / 8 * 8
    -- the rest of the byte `offset` is in
    let set := if bit = 0 then 0
      else ffs ((addr.getD (offset / 8) 0).toNat &&& (255 ^^^ (2 ^ bit - 1)))
    if set ≠ 0 then res + set - 1
    else
      let res := skipZero addr size (size + 1) (if bit = 0 then res else res + 8)
      if size ≤ res then size
      else
        let tail := if size < res + 8 then 255 >>> (8 - (size - res)) else 255
        let d0 := ffs ((addr.getD (res / 8) 0).toNat &&& tail)
        if d0 = 0 then size else res + d0 - 1

/-- The loop over full bytes of `ocfs2_find_next_bit_clear`. -/
def skipFull (addr : List UInt8) (size : Nat) : Nat → Nat → Nat
  | 0, res => res
  | fuel + 1, res =>
    if res < size ∧ addr.getD (res / 8) 0 = 255 then skipFull addr size fuel (res + 8) else res

def findNextBitClear (addr : List UInt8) (size offset : Nat) : Nat :=
  if size = 0 then 0
  else
    let bit := offset % 8
    let res := offset / 8 * 8
    let set := if bit = 0 then 0
      else ffs ((~~~ addr.getD (offset / 8) 0).toNat &&& (255 ^^^ (2 ^ bit - 1)))
    if set ≠ 0 then res + set - 1
    else
      let res := skipFull addr size (size + 1) (if bit = 0 then res else res + 8)
      if size ≤ res then size
      else
        let tail := if size < res + 8 then 255 >>> (8 - (size - res)) else 255
        -- the complement is that of an `int`
        let d0 := ffs (2 ^ 32 - 1 - ((addr.getD (res / 8) 0).toNat &&& tail))
        if d0 = 0 then size else res + d0 - 1

/-! ### Bits -/

variable {addr : List UInt8} {nr i : Nat}

theorem mask_toNat (nr : Nat) : (mask nr).toNat = 2 ^ (nr % 8) := by
  apply Nat.mod_eq_of_lt
  exact Nat.pow_lt_pow_right (by decide) (Nat.mod_lt _ (by decide))

theorem testBit_eq (nr : Nat) (addr : List UInt8) :
    testBit nr addr = (addr.getD (nr / 8) 0).toNat.testBit (nr % 8) := by
  have hzero : ∀ x : UInt8, (x != 0) = (x.toNat != 0) := by
    intro x
    rw [Bool.eq_iff_iff, bne_iff_ne, bne_iff_ne, ← UInt8.toNat_inj.ne]
    rfl
  rw [testBit, hzero, UInt8.toNat_and, mask_toNat, Nat.two_pow_and]
  cases h : (addr.getD (nr / 8) 0).toNat.testBit (nr % 8) with
  | false => simp
  | true => simp

theorem length_flipBit (nr : Nat) (addr : List UInt8) : (flipBit nr addr).length = addr.length :=
  length_modify _ _ _

theorem testBit_mask (nr i : Nat) : (mask nr).toNat.testBit i = decide (nr % 8 = i) := by
  rw [mask_toNat, Nat.testBit_two_pow]

theorem testBit_ge (x : UInt8) (h : 8 ≤ i) : x.toNat.testBit i = false :=
  Nat.testBit_lt_two_pow (lt_of_lt_of_le x.toNat_lt (Nat.pow_le_pow_right (by decide) h))

theorem testBit_not (x : UInt8) (i : Nat) :
    (~~~ x).toNat.testBit i = (decide (i < 8) && !x.toNat.testBit i) := by
  have hx := x.toNat_lt
  rw [UInt8.toNat_not, show UInt8.size - 1 - x.toNat = 2 ^ 8 - (x.toNat + 1) by
    rw [UInt8.size]; omega]
  exact Nat.testBit_two_pow_sub_succ hx i

theorem flipBit_eq (nr : Nat) (addr : List UInt8) :
    (if testBit nr addr then clearBit nr addr else setBit nr addr) = flipBit nr addr := by
  have hbyte : ∀ x, addr[nr / 8]? = some x →
      (if testBit nr addr then x &&& ~~~ mask nr else x ||| mask nr) = x ^^^ mask nr := by
    intro x hx
    rw [testBit_eq, getD_eq_getElem?_getD, hx, Option.getD_some]
    apply UInt8.toNat_inj.mp
    apply Nat.eq_of_testBit_eq
    intro i
    rw [UInt8.toNat_xor, Nat.testBit_xor]
    by_cases hi : nr % 8 = i
    · subst hi
      cases hset : x.toNat.testBit (nr % 8) with
      | true =>
        rw [if_pos rfl, UInt8.toNat_and, Nat.testBit_and, testBit_not, testBit_mask]
        simp
      | false => simp [testBit_mask]
    · split
      · rw [UInt8.toNat_and, Nat.testBit_and, testBit_not, testBit_mask]
        by_cases h8 : i < 8
        · simp [hi, h8]
        · simp [hi, testBit_ge x (not_lt.mp h8)]
      · simp [testBit_mask, hi]
  apply ext_getElem?
  intro k
  split
  all_goals
    rename_i hset
    simp only [clearBit, setBit, flipBit, getElem?_modify]
    by_cases hk : nr / 8 = k
    · subst hk
      cases hx : addr[nr / 8]? with
      | none => rfl
      | some x => simpa [hset] using hbyte x hx
    · simp [hk]

theorem length_setBit (nr : Nat) (addr : List UInt8) : (setBit nr addr).length = addr.length :=
  length_modify _ _ _

theorem length_clearBit (nr : Nat) (addr : List UInt8) : (clearBit nr addr).length = addr.length :=
  length_modify _ _ _

theorem testBit_modify (addr : List UInt8) (nr : Nat) {f : UInt8 → UInt8} {g : Bool → Nat → Bool}
    (hf : ∀ x : UInt8, ∀ j < 8, (f x).toNat.testBit j = g (x.toNat.testBit j) j)
    (hnr : nr < 8 * addr.length) (i : Nat) : testBit i (addr.modify (nr / 8) f) =
      if i / 8 = nr / 8 then g (testBit i addr) (i % 8) else testBit i addr := by
  have hlt : nr / 8 < addr.length := by omega
  rw [testBit_eq, testBit_eq, getD_eq_getElem?_getD, getElem?_modify]
  by_cases hbyte : i / 8 = nr / 8
  · rw [hbyte, getElem?_eq_getElem hlt, getD_eq_getElem _ _ hlt]
    simp only [Option.map_eq_map, Option.map_some, if_true, Option.getD_some]
    exact hf _ _ (Nat.mod_lt i (by decide))
  · rw [if_neg hbyte]
    simp [Ne.symm hbyte, getD_eq_getElem?_getD]

theorem testBit_modify_mask {f : UInt8 → UInt8} {g : Bool → Bool → Bool}
    (hf : ∀ x : UInt8, ∀ j < 8, (f x).toNat.testBit j = g (x.toNat.testBit j) (decide (nr % 8 = j)))
    (hg : ∀ b, g b false = b) (hnr : nr < 8 * addr.length) (i : Nat) :
    testBit i (addr.modify (nr / 8) f) = g (testBit i addr) (decide (i = nr)) := by
  rw [testBit_modify addr nr (g := fun b j => g b (decide (nr % 8 = j))) hf hnr i]
  split
  · rw [show decide (nr % 8 = i % 8) = decide (i = nr) by rw [decide_eq_decide]; omega]
  · next hbyte => rw [decide_eq_false (by rintro rfl; exact hbyte rfl), hg]

theorem testBit_flipBit (hnr : nr < 8 * addr.length) (i : Nat) :
    testBit i (flipBit nr addr) = (testBit i addr ^^ decide (i = nr)) := by
  refine testBit_modify_mask (fun x j _ => ?_) Bool.xor_false hnr i
  rw [UInt8.toNat_xor, Nat.testBit_xor, testBit_mask]

theorem testBit_setBit (hnr : nr < 8 * addr.length) (i : Nat) :
    testBit i (setBit nr addr) = (testBit i addr || decide (i = nr)) := by
  refine testBit_modify_mask (fun x j _ => ?_) Bool.or_false hnr i
  rw [UInt8.toNat_or, Nat.testBit_or, testBit_mask]

theorem testBit_clearBit (hnr : nr < 8 * addr.length) (i : Nat) :
    testBit i (clearBit nr addr) = (testBit i addr && !decide (i = nr)) := by
  refine testBit_modify_mask (g := fun b c => b && !c) (fun x j hj => ?_) Bool.and_true hnr i
  rw [UInt8.toNat_and, Nat.testBit_and, testBit_not, testBit_mask]
  simp [hj]

theorem flipBit_flipBit (nr : Nat) (addr : List UInt8) : flipBit nr (flipBit nr addr) = addr := by
  apply ext_getElem?
  intro k
  simp only [flipBit, getElem?_modify]
  cases addr[k]? with
  | none => rfl
  | some x =>
    by_cases hk : nr / 8 = k
    · simp [hk]
    · simp [hk]

/-! ### The next bit that is set -/

theorem ffs_eq_zero (h : ffs x = 0) (hi : i < 32) : x.testBit i = false := by
  unfold ffs at h
  split at h
  · cases h
  · rename_i hnone
    simpa using find?_range_eq_none.mp hnone i hi

theorem ffs_eq_succ (h : ffs x = r + 1) :
    x.testBit r = true ∧ ∀ j, j < r → x.testBit j = false := by
  unfold ffs at h
  split at h
  · rename_i k hsome
    obtain rfl : k = r := by omega
    obtain ⟨hbit, -, hlow⟩ := find?_range_eq_some.mp hsome
    exact ⟨hbit, fun j hj => by simpa using hlow j hj⟩
  · cases h

/-- The bits from `lo` on and before `hi` are clear. -/
def Clear (addr : List UInt8) (lo hi : Nat) : Prop := ∀ k, lo ≤ k → k < hi → testBit k addr = false

theorem Clear.trans {mid : Nat} (h : Clear addr lo mid) (h' : Clear addr mid hi) :
    Clear addr lo hi := by
  intro k hlo hhi
  by_cases hk : k < mid
  · exact h k hlo hk
  · exact h' k (not_lt.mp hk) hhi

theorem clear_byte (h : addr.getD b 0 = 0) : Clear addr (b * 8) (b * 8 + 8) := by
  intro k hlo hhi
  have hk : k / 8 = b := by omega
  rw [testBit_eq, hk, h]
  exact Nat.zero_testBit _

theorem clear_of_mask (h : ∀ j, lo ≤ j → j < hi → ((addr.getD b 0).toNat &&& m).testBit j = false)
    (hm : ∀ j, lo ≤ j → j < hi → m.testBit j = true) (hhi : hi ≤ 8) :
    Clear addr (b * 8 + lo) (b * 8 + hi) := by
  intro k hklo hkhi
  have hk : k / 8 = b := by omega
  have hbit := h (k % 8) (by omega) (by omega)
  rw [Nat.testBit_and, hm (k % 8) (by omega) (by omega), Bool.and_true] at hbit
  rw [testBit_eq, hk, hbit]

theorem skipZero_spec (addr : List UInt8) (size : Nat) : ∀ fuel b, size ≤ b * 8 + fuel * 8 →
    ∃ b', skipZero addr size fuel (b * 8) = b' * 8 ∧ b ≤ b' ∧ Clear addr (b * 8) (b' * 8) ∧
      (b' * 8 < size → addr.getD b' 0 ≠ 0)
  | 0, b, h => ⟨b, rfl, le_refl b, fun k h1 h2 => by omega, fun hlt => by omega⟩
  | fuel + 1, b, h => by
    rw [skipZero, Nat.mul_div_cancel b (by decide)]
    split
    · rename_i hzero
      obtain ⟨b', hrun, hle, hclear, hend⟩ := skipZero_spec addr size fuel (b + 1) (by omega)
      rw [add_mul] at hrun hclear
      exact ⟨b', hrun, by omega, (clear_byte hzero.2).trans hclear, hend⟩
    · rename_i hstop
      refine ⟨b, rfl, le_refl b, fun k h1 h2 => by omega, ?_⟩
      intro hlt hzero
      exact hstop ⟨hlt, hzero⟩

theorem testBit_of_ffs (h : ffs ((addr.getD b 0).toNat &&& m) = r + 1) :
    r < 8 ∧ m.testBit r = true ∧ testBit (b * 8 + r) addr = true := by
  obtain ⟨hbit, -⟩ := ffs_eq_succ h
  rw [Nat.testBit_and, Bool.and_eq_true] at hbit
  have hr : r < 8 := by
    by_contra hge
    rw [testBit_ge _ (not_lt.mp hge)] at hbit
    cases hbit.1
  refine ⟨hr, hbit.2, ?_⟩
  rw [testBit_eq, show (b * 8 + r) / 8 = b by omega, show (b * 8 + r) % 8 = r by omega]
  exact hbit.1

theorem testBit_high (bit j : Nat) (hj : j < 8) :
    (255 ^^^ (2 ^ bit - 1)).testBit j = !decide (j < bit) := by
  rw [Nat.testBit_xor, show 255 = 2 ^ 8 - 1 from rfl, Nat.testBit_two_pow_sub_one]
  simp [hj]

theorem testBit_tail {res j : Nat} (hres : res < size) (hj : j < 8) :
    (if size < res + 8 then 255 >>> (8 - (size - res)) else 255).testBit j =
      decide (res + j < size) := by
  split
  · rw [Nat.testBit_shiftRight, show 255 = 2 ^ 8 - 1 from rfl, Nat.testBit_two_pow_sub_one]
    rw [decide_eq_decide]
    omega
  · rw [show 255 = 2 ^ 8 - 1 from rfl, Nat.testBit_two_pow_sub_one, decide_eq_decide]
    omega

theorem eq_zero_of_testBit {x : UInt8} (h : ∀ j, j < 8 → x.toNat.testBit j = false) : x = 0 := by
  apply UInt8.toNat_inj.mp
  apply Nat.eq_of_testBit_eq
  intro j
  rw [UInt8.toNat_zero, Nat.zero_testBit]
  by_cases hj : j < 8
  · exact h j hj
  · exact testBit_ge x (not_lt.mp hj)

/-- What `ocfs2_find_next_bit_set` may return for the bits from `offset` on: the first
    bit that is set, or at least `size` if there is none. -/
structure NextSet (addr : List UInt8) (size offset r : Nat) : Prop where
  clear : Clear addr offset (min r size)
  set : r < size → offset ≤ r ∧ testBit r addr = true

/-- What `ocfs2_find_next_bit_set` finds from byte `b` on. -/
def setFrom (addr : List UInt8) (size b : Nat) : Nat :=
  let res := skipZero addr size (size + 1) (b * 8)
  if size ≤ res then size
  else
    let tail := if size < res + 8 then 255 >>> (8 - (size - res)) else 255
    let d0 := ffs ((addr.getD (res / 8) 0).toNat &&& tail)
    if d0 = 0 then size else res + d0 - 1

theorem setFrom_spec (hle : offset ≤ b * 8) (hclear : Clear addr offset (b * 8)) :
    NextSet addr size offset (setFrom addr size b) ∧ setFrom addr size b ≤ size := by
  unfold setFrom
  obtain ⟨b', hrun, hbb, hskip, hend⟩ := skipZero_spec addr size (size + 1) b (by omega)
  have hclear' := hclear.trans hskip
  simp only [hrun]
  rw [Nat.mul_div_cancel b' (by decide)]
  split
  · refine ⟨⟨?_, fun h => absurd h (lt_irrefl size)⟩, le_refl size⟩
    intro k hk hlt
    exact hclear' k hk (by omega)
  · rename_i hlt
    have hlt' : b' * 8 < size := not_le.mp hlt
    generalize hd : ffs _ = d0
    cases d0 with
    | zero =>
      refine ⟨⟨?_, fun h => absurd h (lt_irrefl size)⟩, le_refl size⟩
      have hlast : Clear addr (b' * 8 + 0) (b' * 8 + min 8 (size - b' * 8)) := by
        apply clear_of_mask (fun j _ hj => ffs_eq_zero hd (by omega)) _ (by omega)
        intro j _ hj
        rw [testBit_tail hlt' (by omega), decide_eq_true_eq]
        omega
      -- a byte with a bit set is the last one, and the bit is past the end
      have hshort : size ≤ b' * 8 + 8 := by
        by_contra hlong
        apply hend hlt'
        refine eq_zero_of_testBit fun j hj => ?_
        have := hlast (b' * 8 + j) (by omega) (by omega)
        rwa [testBit_eq, show (b' * 8 + j) / 8 = b' by omega,
          show (b' * 8 + j) % 8 = j by omega] at this
      intro k hk hks
      by_cases hkb : k < b' * 8
      · exact hclear' k hk hkb
      · exact hlast k (by omega) (by omega)
    | succ r =>
      obtain ⟨hr, htail, hset⟩ := testBit_of_ffs hd
      rw [testBit_tail hlt' hr, decide_eq_true_eq] at htail
      rw [if_neg (Nat.succ_ne_zero r)]
      refine ⟨⟨?_, fun _ => ⟨by omega, hset⟩⟩, by omega⟩
      have hlast : Clear addr (b' * 8 + 0) (b' * 8 + r) := by
        apply clear_of_mask (fun j _ hj => (ffs_eq_succ hd).2 j hj) _ (by omega)
        intro j _ hj
        rw [testBit_tail hlt' (by omega), decide_eq_true_eq]
        omega
      intro k hk hks
      exact hclear'.trans hlast k hk (by omega)

theorem findNextBitSet_cases (addr : List UInt8) (hoff : offset ≤ size) :
    NextSet addr size offset (findNextBitSet addr size offset) ∧
      (findNextBitSet addr size offset ≤ size ∧
          (offset % 8 = 0 ∨ Clear addr offset ((offset / 8 + 1) * 8)) ∨
        offset % 8 ≠ 0 ∧ offset ≤ findNextBitSet addr size offset ∧
          findNextBitSet addr size offset / 8 = offset / 8 ∧
          Clear addr offset (findNextBitSet addr size offset) ∧
          testBit (findNextBitSet addr size offset) addr = true) := by
  unfold findNextBitSet
  split
  · exact ⟨⟨fun k h1 h2 => by omega, fun h => by omega⟩, .inl ⟨by omega, .inl (by omega)⟩⟩
  have hdiv : offset = offset / 8 * 8 + offset % 8 := by omega
  by_cases hbit : offset % 8 = 0
  · simp only [if_pos hbit, ne_eq, not_true_eq_false, if_false]
    exact (setFrom_spec (by omega) fun k h1 h2 => by omega).imp_right fun h => .inl ⟨h, .inl hbit⟩
  simp only [if_neg hbit]
  generalize hset : ffs _ = set
  have hhigh : ∀ j, offset % 8 ≤ j → j < 8 → (255 ^^^ (2 ^ (offset % 8) - 1)).testBit j = true := by
    intro j hj hj8
    rw [testBit_high _ j hj8]
    simpa using hj
  cases set with
  | zero =>
    have hrest : Clear addr (offset / 8 * 8 + offset % 8) (offset / 8 * 8 + 8) :=
      clear_of_mask (fun j _ hj => ffs_eq_zero hset (by omega)) hhigh (le_refl 8)
    have hnext : offset / 8 * 8 + 8 = (offset / 8 + 1) * 8 := by omega
    rw [← hdiv, hnext] at hrest
    rw [hnext]
    exact (setFrom_spec (by omega) hrest).imp_right fun h => .inl ⟨h, .inr hrest⟩
  | succ r =>
    obtain ⟨hr, hmask, hone⟩ := testBit_of_ffs hset
    rw [testBit_high _ r hr] at hmask
    have hge : offset % 8 ≤ r := by simpa using hmask
    rw [if_pos (Nat.succ_ne_zero r)]
    have hrest : Clear addr (offset / 8 * 8 + offset % 8) (offset / 8 * 8 + r) :=
      clear_of_mask (fun j _ hj => (ffs_eq_succ hset).2 j hj)
        (fun j h1 h2 => hhigh j h1 (by omega)) (by omega)
    rw [← hdiv] at hrest
    exact ⟨⟨fun k hk hks => hrest k hk (by omega), fun _ => ⟨by omega, hone⟩⟩,
      .inr ⟨hbit, by omega, by omega, hrest, hone⟩⟩

theorem findNextBitSet_spec (addr : List UInt8) (hoff : offset ≤ size) :
    NextSet addr size offset (findNextBitSet addr size offset) :=
  (findNextBitSet_cases addr hoff).1

/-! ### The next bit that is clear -/

def complement (addr : List UInt8) : List UInt8 := addr.map (~~~ ·)

theorem getD_complement (hb : b < addr.length) :
    (complement addr).getD b 0 = ~~~ addr.getD b 0 := by
  rw [complement, getD_eq_getElem _ _ (by simpa using hb), getElem_map, getD_eq_getElem _ _ hb]

theorem testBit_complement (hi : i < 8 * addr.length) :
    testBit i (complement addr) = !testBit i addr := by
  rw [testBit_eq, testBit_eq, getD_complement (by omega), testBit_not]
  simp [Nat.mod_lt]

theorem not_eq_zero_iff (x : UInt8) : ~~~ x = 0 ↔ x = 255 := by
  rw [← UInt8.toNat_inj, ← UInt8.toNat_inj, UInt8.toNat_not]
  have hx := x.toNat_lt
  have hsize : UInt8.size = 256 := rfl
  have h0 : (0 : UInt8).toNat = 0 := rfl
  have h255 : (255 : UInt8).toNat = 255 := rfl
  omega

theorem skipFull_eq (hsize : size ≤ 8 * addr.length) (fuel res) :
    skipFull addr size fuel res = skipZero (complement addr) size fuel res := by
  induction fuel generalizing res with
  | zero => rfl
  | succ fuel ih =>
    rw [skipFull, skipZero]
    by_cases hres : res < size
    · simp only [getD_complement (by omega : res / 8 < addr.length), not_eq_zero_iff, ih]
    · rw [if_neg (fun h => hres h.1), if_neg (fun h => hres h.1)]

theorem ffs_unique (hr : r < 32) (hset : x.testBit r = true)
    (hlow : ∀ j, j < r → x.testBit j = false) : ffs x = r + 1 := by
  have hfind : (List.range 32).find? (fun i => x.testBit i) = some r := by
    rw [find?_range_eq_some]
    exact ⟨hset, mem_range.mpr hr, fun j hj => by simp [hlow j hj]⟩
  rw [ffs, hfind]

theorem testBit_int_not {y : Nat} (hy : y < 2 ^ 32) (j : Nat) :
    (2 ^ 32 - 1 - y).testBit j = (decide (j < 32) && !y.testBit j) := by
  rw [show 2 ^ 32 - 1 - y = 2 ^ 32 - (y + 1) by omega]
  exact Nat.testBit_two_pow_sub_succ hy j

theorem ffs_int_not {x : UInt8} {n : Nat} (hn : n ≤ 8) (hm : ∀ j, m.testBit j = decide (j < n)) :
    ffs (2 ^ 32 - 1 - (x.toNat &&& m)) =
      if ffs ((~~~ x).toNat &&& m) = 0 then n + 1 else ffs ((~~~ x).toNat &&& m) := by
  have hlt : x.toNat &&& m < 2 ^ 32 :=
    lt_of_le_of_lt Nat.and_le_left (lt_trans x.toNat_lt (by decide))
  have hbit : ∀ j, j < n → (2 ^ 32 - 1 - (x.toNat &&& m)).testBit j = !x.toNat.testBit j := by
    intro j hj
    rw [testBit_int_not hlt, Nat.testBit_and, hm]
    simp [hj, (by omega : j < 32)]
  have hcompl : ∀ j, j < n → ((~~~ x).toNat &&& m).testBit j = !x.toNat.testBit j := by
    intro j hj
    rw [Nat.testBit_and, hm, testBit_not]
    simp [hj, (by omega : j < 8)]
  cases hd : ffs ((~~~ x).toNat &&& m) with
  | zero =>
    refine ffs_unique (by omega) ?_ fun j hj => ?_
    · rw [testBit_int_not hlt, Nat.testBit_and, hm]
      simp [(by omega : n < 32)]
    · rw [hbit j hj, ← hcompl j hj]
      exact ffs_eq_zero hd (by omega)
  | succ r =>
    obtain ⟨hset, hlow⟩ := ffs_eq_succ hd
    have hr : r < n := by
      rw [Nat.testBit_and, hm, Bool.and_eq_true, decide_eq_true_eq] at hset
      exact hset.2
    refine ffs_unique (by omega) ?_ fun j hj => ?_
    · rw [hbit r hr, ← hcompl r hr, hset]
    · rw [hbit j (by omega), ← hcompl j (by omega), hlow j hj]

theorem clear_bytes_eq (hsize : size ≤ 8 * addr.length) (b : Nat) :
    (let res := skipFull addr size (size + 1) (b * 8)
      if size ≤ res then size
      else
        let tail := if size < res + 8 then 255 >>> (8 - (size - res)) else 255
        let d0 := ffs (2 ^ 32 - 1 - ((addr.getD (res / 8) 0).toNat &&& tail))
        if d0 = 0 then size else res + d0 - 1) =
      setFrom (complement addr) size b := by
  obtain ⟨b', hrun, _, _, hend⟩ := skipZero_spec (complement addr) size (size + 1) b (by omega)
  simp only [setFrom, skipFull_eq hsize, hrun]
  split
  · rfl
  rename_i hge
  have hlt : b' * 8 < size := not_le.mp hge
  have hend' := hend hlt
  rw [getD_complement (by omega)] at hend'
  rw [Nat.mul_div_cancel b' (by decide), getD_complement (by omega)]
  generalize htail : (if size < b' * 8 + 8 then 255 >>> (8 - (size - b' * 8)) else 255) = tail
  -- the mask keeps the bits of the byte that are before `size`
  have hm : ∀ j, tail.testBit j = decide (j < min 8 (size - b' * 8)) := by
    intro j
    by_cases hj : j < 8
    · rw [← htail, testBit_tail hlt hj, decide_eq_decide]
      omega
    · have hsmall : tail < 2 ^ j := by
        have hpow : 2 ^ 8 ≤ 2 ^ j := Nat.pow_le_pow_right (by decide) (not_lt.mp hj)
        have hle : tail ≤ 255 := by
          rw [← htail]
          split
          · exact Nat.shiftRight_le _ _
          · exact le_refl 255
        omega
      rw [Nat.testBit_lt_two_pow hsmall, eq_comm, decide_eq_false_iff_not]
      omega
  rw [ffs_int_not (min_le_left 8 _) hm]
  split
  · next hd =>
    rw [if_neg (Nat.succ_ne_zero _)]
    -- a byte that is not full has a clear bit, so the mask ends before the byte does
    have hshort : size - b' * 8 ≤ 8 := by
      by_contra hlong
      apply hend'
      refine eq_zero_of_testBit fun j hj => ?_
      have hzero := ffs_eq_zero hd (by omega : j < 32)
      rwa [Nat.testBit_and, hm, decide_eq_true (by omega), Bool.and_true] at hzero
    omega
  · rfl

theorem findNextBitClear_eq (hsize : size ≤ 8 * addr.length) (hoff : offset ≤ size) :
    findNextBitClear addr size offset = findNextBitSet (complement addr) size offset := by
  unfold findNextBitClear findNextBitSet
  by_cases hbit : offset % 8 = 0
  · have hbytes := clear_bytes_eq hsize (offset / 8)
    simp only [setFrom, if_pos hbit, ne_eq, not_true_eq_false, if_false] at hbytes ⊢
    rw [hbytes]
  · have hbytes := clear_bytes_eq hsize (offset / 8 + 1)
    rw [setFrom, show (offset / 8 + 1) * 8 = offset / 8 * 8 + 8 by omega] at hbytes
    rw [getD_complement (by omega)]
    simp only [if_neg hbit] at hbytes ⊢
    rw [hbytes]

theorem findNextBitClear_spec (hsize : size ≤ 8 * addr.length) (hoff : offset ≤ size) :
    (∀ k, offset ≤ k → k < findNextBitClear addr size offset → k < size →
      testBit k addr = true) ∧ (findNextBitClear addr size offset < size →
      offset ≤ findNextBitClear addr size offset ∧
        testBit (findNextBitClear addr size offset) addr = false) := by
  have hnext := findNextBitSet_spec (complement addr) hoff
  rw [← findNextBitClear_eq hsize hoff] at hnext
  refine ⟨fun k h1 h2 h3 => ?_, fun hlt => (hnext.set hlt).imp_right fun h => ?_⟩
  · have := hnext.clear k h1 (by omega)
    rwa [testBit_complement (by omega), Bool.not_eq_false'] at this
  · rwa [testBit_complement (by omega), Bool.not_eq_true'] at h

/-! ### The least index -/

section Least

variable {p q : Nat → Bool} {n : Nat}

/-- `r` is the least index from `offset` on and before `size` that has `p`, or `size`
    if none has. -/
structure IsNext (p : Nat → Bool) (size offset r : Nat) : Prop where
  le : r ≤ size
  before : ∀ k, offset ≤ k → k < r → p k = false
  found : r < size → offset ≤ r ∧ p r = true

/-- The search starts inside a byte, and the first index there that has `p` is behind `size`. -/
def Overshoots (p : Nat → Bool) (size offset : Nat) : Prop :=
  offset % 8 ≠ 0 ∧ ∃ k, size < k ∧ k / 8 = offset / 8 ∧ p k = true ∧
    ∀ j, offset ≤ j → j < k → p j = false

theorem IsNext.congr (hpq : ∀ k < n, p k = q k) (hn : size ≤ n) (h : IsNext p size offset r) :
    IsNext q size offset r := by
  have hle := h.le
  exact ⟨hle, fun k hk hkr => hpq k (by omega) ▸ h.before k hk hkr,
    fun hr => ⟨(h.found hr).1, hpq r (by omega) ▸ (h.found hr).2⟩⟩

theorem IsNext.ge (hoff : offset ≤ size) (h : IsNext p size offset r) : offset ≤ r := by
  by_cases hr : r < size
  · exact (h.found hr).1
  · omega

theorem Overshoots.congr (hpq : ∀ k < 8 * n, p k = q k) (hoff : offset ≤ 8 * n)
    (h : Overshoots p size offset) : Overshoots q size offset := by
  obtain ⟨hbit, k, hk, hbyte, hset, hbefore⟩ := h
  exact ⟨hbit, k, hk, hbyte, hpq k (by omega) ▸ hset,
    fun j h1 h2 => hpq j (by omega) ▸ hbefore j h1 h2⟩

theorem findNextBitSet_isNext_iff (addr : List UInt8) (hoff : offset ≤ size) :
    IsNext (testBit · addr) size offset (findNextBitSet addr size offset) ↔
      ¬ Overshoots (testBit · addr) size offset := by
  obtain ⟨hnext, hcases⟩ := findNextBitSet_cases addr hoff
  generalize findNextBitSet addr size offset = r at hnext hcases ⊢
  have hiff : IsNext (testBit · addr) size offset r ↔ r ≤ size :=
    ⟨fun h => h.le, fun h => ⟨h, fun k hk hkr => hnext.clear k hk (by omega), hnext.set⟩⟩
  rw [hiff]
  rcases hcases with ⟨hle, hbyte⟩ | ⟨hbit, hge, hbyte, hclear, hset⟩
  · refine iff_of_true hle ?_
    rintro ⟨hbit, k, hk, hkb, hset, -⟩
    have hclear := hbyte.resolve_left hbit k (by omega) (by omega)
    exact Bool.false_ne_true (hclear.symm.trans hset)
  · -- `r` is the first bit that is set, also if it is behind `size`
    refine ⟨?_, fun h => not_lt.mp fun hlt => h ⟨hbit, r, hlt, hbyte, hset, hclear⟩⟩
    rintro hle ⟨-, k, hk, -, -, hbefore⟩
    exact Bool.false_ne_true ((hbefore r hge (by omega)).symm.trans hset)

theorem findNextBitClear_isNext_iff (hsize : size ≤ 8 * addr.length) (hoff : offset ≤ size) :
    IsNext (!testBit · addr) size offset (findNextBitClear addr size offset) ↔
      ¬ Overshoots (!testBit · addr) size offset := by
  have hbit : ∀ k < 8 * addr.length, testBit k (complement addr) = !testBit k addr :=
    fun k hk => testBit_complement hk
  have hclear := findNextBitSet_isNext_iff (complement addr) hoff
  rw [← findNextBitClear_eq hsize hoff] at hclear
  constructor
  · intro h ho
    exact hclear.mp (h.congr (fun k hk => (hbit k hk).symm) hsize)
      (ho.congr (fun k hk => (hbit k hk).symm) (hoff.trans hsize))
  · intro h
    exact (hclear.mpr fun ho => h (ho.congr hbit (hoff.trans hsize))).congr hbit hsize

/-- **The two searches find the least index exactly if** neither overshoots. -/
theorem findNextBit_least_iff (addr : List UInt8) (size offset : Nat)
    (hsize : size ≤ 8 * addr.length) (hoff : offset ≤ size) :
    (IsNext (testBit · addr) size offset (findNextBitSet addr size offset) ∧
      IsNext (!testBit · addr) size offset (findNextBitClear addr size offset)) ↔
    ¬ Overshoots (testBit · addr) size offset ∧ ¬ Overshoots (!testBit · addr) size offset :=
  and_congr (findNextBitSet_isNext_iff addr hoff) (findNextBitClear_isNext_iff hsize hoff)

/-- Of two bits, the search from the second one on finds the fourth. -/
theorem findNextBit_overshoots :
    findNextBitSet [8] 2 1 = 3 ∧ findNextBitClear [7] 2 1 = 3 := by decide

theorem findNextBit_least_byte : (IsNext (testBit · [8]) 8 1 (findNextBitSet [8] 8 1) ∧
      IsNext (!testBit · [8]) 8 1 (findNextBitClear [8] 8 1)) ↔
    ¬ Overshoots (testBit · [8]) 8 1 ∧ ¬ Overshoots (!testBit · [8]) 8 1 :=
  findNextBit_least_iff [8] 8 1 (by decide) (by decide)

end Least

end Ocfs2Tools.Bitops
