import Ocfs2Tools.Lib.Crc

/-!
# The polynomial of the CRC

The states a flipped bit runs through in the register of the CRC (`trace`). For less
than `2 ^ 16` steps no two or three of them add up to zero. The proof checks a
sequence of bits of the polynomial's recurrence, `2 ^ 16` shifts of it against itself.
-/

namespace Ocfs2Tools.BlockCheck

open Crc

variable {a b c : Nat}

/-- The polynomial of `crc32table_le`. -/
def polynomial : Nat := 0xedb88320

/-! ### A sequence of bits for the polynomial -/

/-- The recurrence of the polynomial at distance `stride`, for the bits from `base` on. -/
def strided (S base stride : Nat) : Nat → Nat → Nat
  | 0, _ => 0
  | n + 1, p =>
    (if p % 2 = 1 then S >>> (base + n * stride) else 0) ^^^ strided S base stride n (p / 2)

/-- Extend a sequence of `len` bits. Squaring the polynomial doubles the distances in its
    recurrence, so the new bits come in long pieces. -/
def extend (len S : Nat) : Nat × Nat :=
  let stride := 2 ^ Nat.log2 (len / 32)
  let piece := strided S (len - 32 * stride) stride 32 polynomial % 2 ^ (6 * stride)
  (len + 6 * stride, S + piece <<< len)

def extendBits : Nat → Nat × Nat → Nat
  | 0, (_, S) => S
  | n + 1, (len, S) => extendBits n (extend len S)

/-- A sequence of bits of the recurrence of the polynomial, with zeros from bit 32 to bit
    62. That it is one is checked, not proved from the way it is made. -/
def sequence : Nat := extendBits 56 (63, 0xd558a113)

theorem sequence_recurs : Recurs polynomial 32 (2 ^ 16 + 31) sequence := by
  unfold Recurs
  decide +kernel

theorem sequence_zero : (sequence >>> 32) % 2 ^ 31 = 0 := by decide +kernel

theorem sequence_differFrom {k : Nat} (hk : k < 16) :
    differFrom (2 ^ 2 ^ 16 - 1) (sequence >>> 32) 12 (2 ^ 12 * k + 1) = true := by
  interval_cases k <;> decide +kernel

theorem sequence_differAt {d : Nat} (hpos : 0 < d) (hd : d < 2 ^ 16) :
    differAt (2 ^ 2 ^ 16 - 1) (sequence >>> 32) d = true := by
  apply differFrom_at (sequence_differFrom (k := (d - 1) / 2 ^ 12) (by omega))
  · omega
  · omega

/-! ### The states of a flipped bit -/

/-- What a flipped bit has become after `n` steps of the register. -/
def trace (n : Nat) : Nat := (step polynomial)^[n] 1

theorem trace_ne_zero (n : Nat) : trace n ≠ 0 := by
  intro h
  have := iterate_eq_zero (w := 32) (by decide) (by decide) n (by decide) h
  cases this

theorem one_lt_trace_xor (hab : a ≠ b) (ha : a < 2 ^ 16) (hb : b < 2 ^ 16) :
    1 < trace a ^^^ trace b := by
  have hlt : ∀ a b, a < b → b < 2 ^ 16 → 1 < trace a ^^^ trace b := fun a b hab hb =>
    sequence_recurs.iterate_one_ne (by decide) sequence_zero (le_refl _)
      (fun _ => sequence_differAt) hab hb
  rcases Nat.lt_or_gt_of_ne hab with h | h
  · exact hlt a b h hb
  · rw [Nat.xor_comm]
    exact hlt b a h ha

/-- The traces of three bits do not cancel out. The last of them is taken out of the
    register first, which leaves a one. -/
theorem trace_xor_xor_ne_of_lt (hca : c < a) (hcb : c < b) (hab : a ≠ b) (ha : a < 2 ^ 16)
    (hb : b < 2 ^ 16) : trace a ^^^ trace b ^^^ trace c ≠ 0 := by
  have hout : trace a ^^^ trace b ^^^ trace c =
      (step polynomial)^[c] (trace (a - c) ^^^ trace (b - c) ^^^ 1) := by
    rw [iterate_xor, iterate_xor, trace, trace, trace, trace, trace,
      ← Function.iterate_add_apply, ← Function.iterate_add_apply,
      Nat.add_sub_cancel' (le_of_lt hca), Nat.add_sub_cancel' (le_of_lt hcb)]
  have hlt : ∀ n, trace n < 2 ^ 32 := fun n => iterate_lt (by decide) (by decide) n
  intro h
  rw [hout] at h
  have hzero := iterate_eq_zero (by decide) (by decide) c
    (Nat.xor_lt_two_pow (Nat.xor_lt_two_pow (hlt _) (hlt _)) (by decide)) h
  have hone := Nat.xor_eq_zero_iff.mp hzero
  have := one_lt_trace_xor (show a - c ≠ b - c by omega) (by omega) (by omega)
  omega

theorem trace_xor_xor_ne (hab : a ≠ b) (hac : a ≠ c) (hbc : b ≠ c) (ha : a < 2 ^ 16)
    (hb : b < 2 ^ 16) (hc : c < 2 ^ 16) : trace a ^^^ trace b ^^^ trace c ≠ 0 := by
  by_cases hmin : c < a ∧ c < b
  · exact trace_xor_xor_ne_of_lt hmin.1 hmin.2 hab ha hb
  by_cases hmin' : a < b ∧ a < c
  · rw [Nat.xor_assoc, Nat.xor_comm]
    exact trace_xor_xor_ne_of_lt hmin'.1 hmin'.2 hbc hb hc
  · rw [Nat.xor_assoc, Nat.xor_comm (trace b), ← Nat.xor_assoc]
    exact trace_xor_xor_ne_of_lt (by omega) (by omega) hac ha hc

end Ocfs2Tools.BlockCheck
