import Ocfs2Tools.BlockCheck.Model
import Ocfs2Tools.BlockCheck.Sequence

/-!
# What the CRC of a block detects

`crc32_le` runs the register of the CRC over the bits of the block, whatever the
alignment (`crc32Le_eq`). Flipping a bit adds the state that a single bit reaches over
the rest of the block (`crcBytes_flipBit`), so in a block of less than `2 ^ 16` bits the
CRC does not miss one, two or three of them.
-/

namespace Ocfs2Tools.BlockCheck

open Bitops Crc

def crcByte (crc : Nat) (x : UInt8) : Nat := (step polynomial)^[8] (crc ^^^ x.toNat)

def crcBytes (crc : Nat) (p : List UInt8) : Nat := p.foldl crcByte crc

theorem crc32tableLe_eq {v : Nat} (hv : v < 2 ^ 8) :
    crc32tableLe.getD v 0 = (step polynomial)^[8] v := by
  have hall : ∀ v : Fin 256, crc32tableLe.getD v 0 = (step polynomial)^[8] v := by decide +kernel
  exact hall ⟨v, hv⟩

theorem xor_split (y : Nat) : y % 2 ^ 8 ^^^ 2 ^ 8 * (y / 2 ^ 8) = y := by
  apply Nat.eq_of_testBit_eq
  intro i
  rw [Nat.testBit_xor, Nat.testBit_mod_two_pow, Nat.testBit_two_pow_mul, Nat.testBit_div_two_pow]
  by_cases hi : i < 8
  · simp [hi, not_le.mpr hi]
  · simp [hi, not_lt.mp hi]

theorem doCrc_eq (crc : Nat) {x : Nat} (hx : x < 256) :
    doCrc crc x = (step polynomial)^[8] (crc ^^^ x) := by
  have hlow : crc32tableLe.getD ((crc ^^^ x) &&& 255) 0 =
      (step polynomial)^[8] ((crc ^^^ x) % 2 ^ 8) := by
    rw [← crc32tableLe_eq (Nat.mod_lt _ (Nat.two_pow_pos 8))]
    exact congrArg (fun v => crc32tableLe.getD v 0) (Nat.and_two_pow_sub_one_eq_mod _ 8)
  have hhigh : crc >>> 8 = (crc ^^^ x) / 2 ^ 8 := by
    rw [← Nat.shiftRight_eq_div_pow, Nat.shiftRight_xor_distrib, Nat.shiftRight_eq_div_pow x,
      Nat.div_eq_of_lt hx, Nat.xor_zero]
  conv_rhs => rw [← xor_split (crc ^^^ x), iterate_xor, iterate_two_pow_mul]
  rw [doCrc, hlow, hhigh]

theorem doCrc_byte (crc : Nat) (x : UInt8) : doCrc crc x.toNat = crcByte crc x :=
  doCrc_eq crc x.toNat_lt

theorem crcBytes_cons (crc : Nat) (x : UInt8) (p : List UInt8) :
    crcBytes crc (x :: p) = crcBytes (crcByte crc x) p := rfl

theorem crcAlign_eq (addr crc : Nat) (p : List UInt8) :
    crcBytes (crcAlign addr crc p).1 (crcAlign addr crc p).2 = crcBytes crc p := by
  induction p generalizing addr crc with
  | nil => rfl
  | cons x p ih =>
    rw [crcAlign]
    split
    · rfl
    · rw [ih, doCrc_byte, crcBytes_cons]

theorem crcByte_ahead (crc y : Nat) (x : UInt8) :
    (step polynomial)^[8] (crc ^^^ (x.toNat + 256 * y)) = crcByte crc x ^^^ y := by
  have hsplit : x.toNat + 256 * y = x.toNat ^^^ 2 ^ 8 * y := by
    have := xor_split (x.toNat + 256 * y)
    have hx := x.toNat_lt
    rw [show (x.toNat + 256 * y) % 2 ^ 8 = x.toNat by omega,
      show (x.toNat + 256 * y) / 2 ^ 8 = y by omega] at this
    exact this.symm
  rw [hsplit, ← Nat.xor_assoc, iterate_xor, iterate_two_pow_mul, crcByte]

theorem crcWords_eq (crc : Nat) (p : List UInt8) :
    crcBytes (crcWords crc p).1 (crcWords crc p).2 = crcBytes crc p := by
  fun_induction crcWords crc p with
  | case1 crc x0 x1 x2 x3 p word ih =>
    rw [ih]
    have hword : word = crc ^^^ (x0.toNat + 256 * (x1.toNat + 256 * (x2.toNat + 256 *
      (x3.toNat + 256 * 0)))) := rfl
    simp only [doCrc_eq _ (show 0 < 256 by decide), Nat.xor_zero, crcBytes_cons]
    rw [hword, crcByte_ahead, crcByte_ahead, crcByte_ahead, crcByte_ahead, Nat.xor_zero]
  | case2 => rfl

theorem crc32Le_eq (addr crc : Nat) (p : List UInt8) : crc32Le addr crc p = crcBytes crc p := by
  have hfold : ∀ p crc, p.foldl (fun crc x => doCrc crc x.toNat) crc = crcBytes crc p := by
    intro p
    induction p with
    | nil => exact fun _ => rfl
    | cons x p ih =>
      intro crc
      rw [List.foldl_cons, ih, doCrc_byte, crcBytes_cons]
  rw [crc32Le]
  simp only []
  rw [hfold, crcWords_eq, crcAlign_eq]

/-- **`crc32_le` is the bitwise checksum**, wherever the buffer lies, also piece by piece. -/
theorem crc32Le_pieces (addr crc : Nat) (ps : List (Nat × List UInt8)) :
    crc32Le addr crc (ps.flatMap (·.2)) = ps.foldl (fun crc p => crc32Le p.1 crc p.2) crc ∧
      crc32Le addr crc (ps.flatMap (·.2)) = crcBytes crc (ps.flatMap (·.2)) := by
  refine ⟨?_, crc32Le_eq addr crc _⟩
  simp only [crc32Le_eq, crcBytes]
  induction ps generalizing crc with
  | nil => rfl
  | cons p ps ih => rw [List.flatMap_cons, List.foldl_append, ih, List.foldl_cons]

theorem crcBytes_lt (p : List UInt8) {crc : Nat}
    (hcrc : crc < 2 ^ 32) : crcBytes crc p < 2 ^ 32 := by
  induction p generalizing crc with
  | nil => exact hcrc
  | cons x p ih =>
    apply ih
    apply iterate_lt (by decide)
    exact Nat.xor_lt_two_pow hcrc (lt_trans x.toNat_lt (by decide))

/-! ### Flipped bits -/

theorem crcBytes_xor (p : List UInt8) (crc e : Nat) :
    crcBytes (crc ^^^ e) p = crcBytes crc p ^^^ (step polynomial)^[8 * p.length] e := by
  induction p generalizing crc e with
  | nil => rfl
  | cons x p ih =>
    have hbyte : crcByte (crc ^^^ e) x = crcByte crc x ^^^ (step polynomial)^[8] e := by
      rw [crcByte, crcByte, Nat.xor_assoc, Nat.xor_comm e, ← Nat.xor_assoc, iterate_xor]
    rw [crcBytes_cons, crcBytes_cons, hbyte, ih, ← Function.iterate_add_apply, List.length_cons,
      Nat.mul_succ]

theorem crcBytes_flipBit (p : List UInt8) (crc nr : Nat) (hnr : nr < 8 * p.length) :
    crcBytes crc (flipBit nr p) = crcBytes crc p ^^^ (step polynomial)^[8 * p.length - nr] 1 := by
  induction p generalizing crc nr with
  | nil => simp at hnr
  | cons x p ih =>
    rw [List.length_cons] at hnr ⊢
    by_cases hfirst : nr < 8
    · -- the bit is still in the register after the byte
      have hflip : flipBit nr (x :: p) = (x ^^^ mask nr) :: p := by
        rw [flipBit, Nat.div_eq_of_lt hfirst, List.modify_zero_cons]
      have hbyte : crcByte crc (x ^^^ mask nr) =
          crcByte crc x ^^^ (step polynomial)^[8 - nr] 1 := by
        have hout : (step polynomial)^[8] (2 ^ nr) = (step polynomial)^[8 - nr] 1 := by
          have := iterate_two_pow_mul polynomial nr 1
          rw [mul_one] at this
          rw [← this, ← Function.iterate_add_apply, Nat.sub_add_cancel (le_of_lt hfirst)]
        rw [crcByte, UInt8.toNat_xor, mask_toNat, Nat.mod_eq_of_lt hfirst, ← Nat.xor_assoc,
          iterate_xor, hout, crcByte]
      rw [hflip, crcBytes_cons, hbyte, crcBytes_xor, ← Function.iterate_add_apply, crcBytes_cons,
        show 8 * (p.length + 1) - nr = 8 * p.length + (8 - nr) by omega]
    · obtain ⟨m, rfl⟩ : ∃ m, nr = m + 8 := ⟨nr - 8, by omega⟩
      have hflip : flipBit (m + 8) (x :: p) = x :: flipBit m p := by
        rw [flipBit, flipBit, show (m + 8) / 8 = m / 8 + 1 by omega, List.modify_succ_cons, mask,
          mask, Nat.add_mod_right]
      rw [hflip, crcBytes_cons, ih _ m (by omega), crcBytes_cons,
        show 8 * (p.length + 1) - (m + 8) = 8 * p.length - m by omega]

/-! ### Detection -/

variable {p : List UInt8} {i j k : Nat}

/-- The CRC is not the same after one bit has flipped, -/
theorem crcBytes_flip_ne (crc : Nat) (hi : i < 8 * p.length) :
    crcBytes crc (flipBit i p) ≠ crcBytes crc p := by
  rw [crcBytes_flipBit p crc i hi]
  intro h
  exact trace_ne_zero _ (Nat.xor_right_inj.mp (h.trans (Nat.xor_zero _).symm))

/-- nor after two, -/
theorem crcBytes_flip_flip_ne (crc : Nat) (hlen : 8 * p.length < 2 ^ 16) (hi : i < 8 * p.length)
    (hj : j < 8 * p.length) (hij : i ≠ j) :
    crcBytes crc (flipBit j (flipBit i p)) ≠ crcBytes crc p := by
  rw [crcBytes_flipBit _ crc j (by rwa [length_flipBit]), crcBytes_flipBit p crc i hi,
    length_flipBit, Nat.xor_assoc]
  intro h
  have hzero := Nat.xor_right_inj.mp (h.trans (Nat.xor_zero _).symm)
  have := one_lt_trace_xor (show 8 * p.length - i ≠ 8 * p.length - j by omega) (by omega) (by omega)
  rw [trace, trace] at this
  omega

/-- nor after three. -/
theorem crcBytes_flip_flip_flip_ne (crc : Nat) (hlen : 8 * p.length < 2 ^ 16)
    (hi : i < 8 * p.length) (hj : j < 8 * p.length) (hk : k < 8 * p.length) (hij : i ≠ j)
    (hik : i ≠ k) (hjk : j ≠ k) :
    crcBytes crc (flipBit k (flipBit j (flipBit i p))) ≠ crcBytes crc p := by
  rw [crcBytes_flipBit _ crc k (by rwa [length_flipBit, length_flipBit]),
    crcBytes_flipBit _ crc j (by rwa [length_flipBit]), crcBytes_flipBit p crc i hi,
    length_flipBit, length_flipBit, length_flipBit, Nat.xor_assoc, Nat.xor_assoc]
  intro h
  have hzero := Nat.xor_right_inj.mp (h.trans (Nat.xor_zero _).symm)
  rw [← Nat.xor_assoc] at hzero
  exact trace_xor_xor_ne (by omega)
    (by omega)
    (by omega) (by omega) (by omega) (by omega) hzero

end Ocfs2Tools.BlockCheck
