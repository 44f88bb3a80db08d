import Ocfs2Tools.BlockCheck.Crc
import Ocfs2Tools.BlockCheck.Hamming

/-!
# Validating a block

A block with its check field computed validates as it is; with one bit flipped it is
repaired; with two bits flipped it is refused, because a repair of the wrong bit leaves
three bits wrong, and the CRC misses no three of them.
-/

namespace Ocfs2Tools.BlockCheck

open List Bitops

variable {bc addr i j : Nat} {data field : List UInt8}

/-! ### The check field -/

section Field

variable (hbc : bc + 8 ≤ data.length)

include hbc

theorem drop_putCheck : (putCheck bc field data).drop bc = field ++ data.drop (bc + 8) := by
  have htake : (data.take bc).length = bc := length_take_of_le (by omega)
  rw [putCheck, append_assoc, drop_append_of_le_length (by omega),
    drop_of_length_le (by omega), nil_append]

variable (hf : field.length = 8)

include hf

theorem length_putCheck : (putCheck bc field data).length = data.length := by
  simp only [putCheck, length_append, length_take, length_drop, hf]
  omega

theorem putCheck_getElem? (k : Nat) : (putCheck bc field data)[k]? =
      if bc ≤ k ∧ k < bc + 8 then field[k - bc]? else data[k]? := by
  have htake : (data.take bc).length = bc := length_take_of_le (by omega)
  rw [putCheck]
  by_cases hlow : k < bc
  · rw [if_neg (by omega), append_assoc, getElem?_append_left (by omega), getElem?_take_of_lt hlow]
  by_cases hmid : k < bc + 8
  · rw [if_pos ⟨by omega, hmid⟩, getElem?_append_left (by rw [length_append]; omega),
      getElem?_append_right (by omega), htake]
  · rw [if_neg (by omega), getElem?_append_right (by rw [length_append]; omega),
      length_append, getElem?_drop]
    congr 1
    omega

theorem putCheck_putCheck {field' : List UInt8} (hf' : field'.length = 8) :
    putCheck bc field' (putCheck bc field data) = putCheck bc field' data := by
  apply ext_getElem?
  intro k
  rw [putCheck_getElem? (by rwa [length_putCheck hbc hf]) hf', putCheck_getElem? hbc hf',
    putCheck_getElem? hbc hf]
  split
  · rfl
  · rfl

def Outside (bc i : Nat) : Prop := i < 8 * bc ∨ 8 * (bc + 8) ≤ i

theorem flipBit_putCheck (hi : Outside bc i) :
    flipBit i (putCheck bc field data) = putCheck bc field (flipBit i data) := by
  apply ext_getElem?
  intro k
  rw [putCheck_getElem? (by rwa [length_flipBit]) hf, flipBit, flipBit, getElem?_modify,
    getElem?_modify, putCheck_getElem? hbc hf]
  rw [Outside] at hi
  by_cases hmid : bc ≤ k ∧ k < bc + 8
  · have hne : i / 8 ≠ k := by omega
    simp [hmid, hne]
  · rw [if_neg hmid, if_neg hmid]

end Field

@[simp] theorem length_checkField (crc ecc : Nat) : (checkField crc ecc).length = 8 := by
  simp [checkField]

theorem stored_crc {crc : Nat} (hcrc : crc < 2 ^ 32) (ecc : Nat) (hbc : bc + 8 ≤ data.length) :
    leNat (((putCheck bc (checkField crc ecc) data).drop bc).take 4) = crc := by
  rw [drop_putCheck hbc]
  exact leNat_leBytes 4 crc hcrc

theorem stored_ecc {ecc : Nat} (hecc : ecc < 2 ^ 16) (crc : Nat) (hbc : bc + 8 ≤ data.length) :
    leNat (((putCheck bc (checkField crc ecc) data).drop (bc + 4)).take 2) = ecc := by
  rw [← drop_drop, drop_putCheck hbc]
  exact leNat_leBytes 2 ecc hecc

/-! ### The block without its check field -/

/-- A block of the given length whose check field is zero; every bit of it has a code
    bit of 16 bits. -/
structure Zeroed (bc : Nat) (data : List UInt8) : Prop where
  room : bc + 8 ≤ data.length
  zero : zeroCheck bc data = data
  fits : ∀ k, k < data.length * 8 → codeBit k < 2 ^ 16

section Zeroed

variable (h : Zeroed bc data)

include h

theorem Zeroed.length_lt : 8 * data.length < 2 ^ 16 := by
  by_contra hge
  have hcode := calcCodeBit_spec (show 2 ^ 16 - 1 < 2 ^ 31 by decide)
  have hfit := h.fits (2 ^ 16 - 1) (by omega)
  rw [hcode.eq] at hfit
  omega

theorem Zeroed.flip (hi : Outside bc i) : Zeroed bc (flipBit i data) := by
  refine ⟨by rw [length_flipBit]; exact h.room, ?_, by rw [length_flipBit]; exact h.fits⟩
  rw [zeroCheck, ← flipBit_putCheck h.room (by simp) hi]
  exact congrArg (flipBit i) h.zero

def parityOf (data : List UInt8) : Nat := codeSum (fun j => testBit j data) (data.length * 8)

theorem Zeroed.encode : hammingEncodeBlock data = some (parityOf data) := by
  have hroom := h.room
  have hlen := h.length_lt
  exact hammingEncodeBlock_eq (by omega) (by omega)

theorem Zeroed.parityOf_lt : parityOf data < 2 ^ 16 := codeSum_lt _ h.fits

omit h

theorem parityOf_flip (hi : i < 8 * data.length) :
    parityOf (flipBit i data) = parityOf data ^^^ codeBit i := by
  rw [parityOf, length_flipBit, codeSum_flip (fun k => testBit_flipBit hi k), if_pos (by omega),
    parityOf]

def sealed (bc : Nat) (data : List UInt8) : List UInt8 :=
  putCheck bc (checkField (crcBytes 0xffffffff data) (parityOf data)) data

theorem Zeroed.compute (h : Zeroed bc (zeroCheck bc data)) :
    blockCheckCompute addr bc data = some (sealed bc (zeroCheck bc data)) := by
  rw [blockCheckCompute]
  simp only [h.encode, crc32Le_eq, Option.bind_eq_bind, Option.bind_some,
    Nat.mod_eq_of_lt h.parityOf_lt]
  rfl

include h

theorem Zeroed.validate {old : List UInt8} (hold : Zeroed bc old) : blockCheckValidate addr bc
        (putCheck bc (checkField (crcBytes 0xffffffff old) (parityOf old)) data) =
      if crcBytes 0xffffffff data = crcBytes 0xffffffff old then
        some (.ok (), putCheck bc (checkField (crcBytes 0xffffffff old) (parityOf old)) data)
      else (hammingFixBlock data (parityOf data ^^^ parityOf old)).map fun fixed =>
        (if crcBytes 0xffffffff fixed = crcBytes 0xffffffff old then .ok () else .error .badCrc32,
          putCheck bc (checkField (crcBytes 0xffffffff old) (parityOf old)) fixed) := by
  rw [blockCheckValidate, stored_crc (crcBytes_lt _ (by decide)) _ h.room,
    stored_ecc hold.parityOf_lt _ h.room, zeroCheck,
    putCheck_putCheck h.room (by simp) (by simp), ← zeroCheck, h.zero]
  simp only [crc32Le_eq, h.encode, fixedCheck, Option.bind_eq_bind, Option.bind_some]
  split
  · rfl
  · cases hammingFixBlock data (parityOf data ^^^ parityOf old) with
    | none => rfl
    | some fixed => rfl

theorem Zeroed.validate_sealed :
    blockCheckValidate addr bc (sealed bc data) = some (.ok (), sealed bc data) := by
  rw [sealed, h.validate h, if_pos rfl]

theorem Zeroed.flip_sealed (hi : Outside bc i) : flipBit i (sealed bc data) =
      putCheck bc (checkField (crcBytes 0xffffffff data) (parityOf data)) (flipBit i data) :=
  flipBit_putCheck h.room (by simp) hi

theorem Zeroed.validate_flip (hlt : i < 8 * data.length) (hi : Outside bc i) :
    blockCheckValidate addr bc (flipBit i (sealed bc data)) = some (.ok (), sealed bc data) := by
  have hlen := h.length_lt
  rw [h.flip_sealed hi, (h.flip hi).validate h, if_neg (crcBytes_flip_ne _ hlt), parityOf_flip hlt]
  have hfix : parityOf data ^^^ codeBit i ^^^ parityOf data = codeBit i := by
    rw [Nat.xor_comm (parityOf data), Nat.xor_assoc, Nat.xor_self, Nat.xor_zero]
  rw [hfix]
  rcases hammingFixBlock_cases (flipBit i data) (by rw [length_flipBit]; omega)
    (by rw [length_flipBit]; omega) (codeBit i) with ⟨k, hk, hcode, hrun⟩ | ⟨hnone, -⟩
  · rw [length_flipBit] at hk
    obtain rfl : k = i := codeBit_inj (by omega) (by omega) hcode
    rw [hrun, flipBit_flipBit]
    simp [sealed]
  · rw [length_flipBit] at hnone
    exact absurd rfl (hnone i (by omega))

theorem Zeroed.validate_flip_flip (addr : Nat) (hlti : i < 8 * data.length)
    (hltj : j < 8 * data.length) (hi : Outside bc i) (hj : Outside bc j) (hij : i ≠ j) :
    ∃ out, blockCheckValidate addr bc (flipBit j (flipBit i (sealed bc data))) =
      some (.error .badCrc32, out) := by
  have hroom := h.room
  have hlen := h.length_lt
  have hroom' : bc + 8 ≤ (flipBit i data).length := by rwa [length_flipBit]
  have hltj' : j < 8 * (flipBit i data).length := by rwa [length_flipBit]
  rw [h.flip_sealed hi, flipBit_putCheck hroom' (by simp) hj, ((h.flip hi).flip hj).validate h,
    if_neg (crcBytes_flip_flip_ne _ hlen hlti hltj hij), parityOf_flip hltj', parityOf_flip hlti]
  have hfix : parityOf data ^^^ codeBit i ^^^ codeBit j ^^^ parityOf data =
      codeBit i ^^^ codeBit j := by
    rw [Nat.xor_assoc (parityOf data), Nat.xor_comm (parityOf data), Nat.xor_assoc, Nat.xor_self,
      Nat.xor_zero]
  rw [hfix]
  rcases hammingFixBlock_cases (flipBit j (flipBit i data))
    (by rw [length_flipBit]; omega) (by rw [length_flipBit, length_flipBit]; omega)
    (codeBit i ^^^ codeBit j) with ⟨k, hk, hcode, hrun⟩ | ⟨-, hrun⟩
  · -- a third bit is flipped, and it is not one of the two
    rw [length_flipBit, length_flipBit] at hk
    have hne : ∀ k, k < 2 ^ 31 → codeBit k ≠ 0 := by
      intro k hk hzero
      have := (calcCodeBit_spec hk).eq
      omega
    have hki : i ≠ k := by
      rintro rfl
      apply hne j (by omega)
      exact Nat.xor_right_inj.mp (hcode.symm.trans (Nat.xor_zero _).symm)
    have hkj : j ≠ k := by
      rintro rfl
      apply hne i (by omega)
      exact Nat.xor_left_inj.mp (hcode.symm.trans (Nat.zero_xor _).symm)
    rw [hrun, Option.map_some, if_neg (crcBytes_flip_flip_flip_ne _ hlen hlti hltj
      (by omega) hij hki hkj)]
    exact ⟨_, rfl⟩
  · rw [hrun, Option.map_some, if_neg (crcBytes_flip_flip_ne _ hlen hlti hltj hij)]
    exact ⟨_, rfl⟩

end Zeroed

theorem zeroed_of_fits (hbc : bc + 8 ≤ data.length)
    (hfit : data.length * 8 + parityBits (data.length * 8 - 1) < 2 ^ 16) :
    Zeroed bc (zeroCheck bc data) := by
  have hlen : (zeroCheck bc data).length = data.length := length_putCheck hbc (by simp)
  refine ⟨by rwa [hlen], putCheck_putCheck hbc (by simp) (by simp), ?_⟩
  intro k hk
  have hlast := calcCodeBit_spec (show data.length * 8 - 1 < 2 ^ 31 by omega)
  have hle : codeBit k ≤ codeBit (data.length * 8 - 1) := by
    by_cases heq : k = data.length * 8 - 1
    · rw [heq]
    · exact le_of_lt (codeBit_lt (by omega) (by omega))
  rw [hlast.eq] at hle
  omega

/-- A block whose bits have code bits of at most 16 bits, with its check field computed:
    it validates unchanged; with any one bit outside the field flipped it validates and
    is as before; with any two flipped it does not validate as something else. -/
theorem blockCheckValidate_flips (addr addr' bc : Nat) (data : List UInt8)
    (hbc : bc + 8 ≤ data.length)
    (hfit : data.length * 8 + parityBits (data.length * 8 - 1) < 2 ^ 16) :
    ∃ blk, blockCheckCompute addr bc data = some blk ∧
      blockCheckValidate addr' bc blk = some (.ok (), blk) ∧
      (∀ i, i < 8 * data.length → Outside bc i →
        blockCheckValidate addr' bc (flipBit i blk) = some (.ok (), blk)) ∧
      (∀ i j, i < 8 * data.length → j < 8 * data.length → Outside bc i → Outside bc j → i ≠ j →
        ∃ r out, blockCheckValidate addr' bc (flipBit j (flipBit i blk)) = some (r, out) ∧
          (r = .ok () → out = blk)) := by
  have h := zeroed_of_fits hbc hfit
  have hlen : (zeroCheck bc data).length = data.length := length_putCheck hbc (by simp)
  refine ⟨_, h.compute, h.validate_sealed, ?_, ?_⟩
  · intro i hlt hi
    exact h.validate_flip (by rwa [hlen]) hi
  · intro i j hlti hltj hi hj hij
    obtain ⟨out, hrun⟩ := h.validate_flip_flip addr' (by rwa [hlen]) (by rwa [hlen]) hi hj hij
    exact ⟨_, out, hrun, fun hok => by cases hok⟩

theorem blockCheckValidate_flips_zeros :
    ∃ blk, blockCheckCompute 0 4 (List.replicate 16 0) = some blk ∧
      blockCheckValidate 1 4 (flipBit 3 blk) = some (.ok (), blk) := by
  obtain ⟨blk, hcompute, -, hflip, -⟩ :=
    blockCheckValidate_flips 0 1 4 (List.replicate 16 0) (by decide) (by decide)
  exact ⟨blk, hcompute, hflip 3 (by decide) (.inl (by decide))⟩

end Ocfs2Tools.BlockCheck
