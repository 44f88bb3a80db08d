import Mathlib

/-!
# Fixed-width unsigned arithmetic on `Nat`

The C sources compute on `uint16_t`, `uint32_t` and `uint64_t`. A value of such
a type is a `Nat` here, and the two operations that can leave the range wrap
around explicitly. The lemmas say when they do not.
-/

namespace Ocfs2Tools

variable {w a b : Nat}

/-- `a + b` in an unsigned type of `w` bits. -/
def addW (w a b : Nat) : Nat := (a + b) % 2 ^ w

/-- `a - b` in an unsigned type of `w` bits. -/
def subW (w a b : Nat) : Nat := (a + (2 ^ w - b % 2 ^ w)) % 2 ^ w

theorem addW_eq (h : a + b < 2 ^ w) : addW w a b = a + b :=
  Nat.mod_eq_of_lt h

theorem subW_eq (hle : b ≤ a) (ha : a < 2 ^ w) : subW w a b = a - b := by
  have hb : b % 2 ^ w = b := Nat.mod_eq_of_lt (lt_of_le_of_lt hle ha)
  have hsum : a + (2 ^ w - b) = (a - b) + 2 ^ w := by omega
  rw [subW, hb, hsum, Nat.add_mod_right, Nat.mod_eq_of_lt (by omega)]

theorem addW_lt (w a b : Nat) : addW w a b < 2 ^ w :=
  Nat.mod_lt _ (Nat.two_pow_pos w)

@[simp] theorem addW_32_eq (h : a + b < 4294967296) : addW 32 a b = a + b :=
  addW_eq h

@[simp] theorem subW_32_eq (hle : b ≤ a) (ha : a < 4294967296) : subW 32 a b = a - b :=
  subW_eq hle ha

end Ocfs2Tools
