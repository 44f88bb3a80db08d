import Mathlib

/-!
# The register of a cyclic redundancy check

`step poly` is one step of the shift register of a reflected cyclic redundancy
check: the low bit goes out, and if it was set the polynomial is added. All bits
that a message has in common with another one cancel out, because the step is
linear in exclusive or. So what the check says about a few flipped bits depends
only on the states `1, step 1, step (step 1), …` a single bit runs through.

The second half is a certificate for these states. A sequence of bits that
satisfies the recurrence of the polynomial sees every state of the register through
a window of its bits (`pairing_iterate`), so if no two windows of the sequence are
equal, no two of the states are equal, nor differ in the low bit only
(`iterate_one_ne`). The sequence is one big number, and both conditions are checked
for all positions at once by shifts of that number.
-/

namespace Ocfs2Tools.Crc

variable {M t n p : Nat}

/-- One step of the register with the reflected polynomial `poly`. -/
def step (poly s : Nat) : Nat := s / 2 ^^^ (if s % 2 = 1 then poly else 0)

variable {poly w s : Nat}

theorem step_xor (poly a b : Nat) : step poly (a ^^^ b) = step poly a ^^^ step poly b := by
  have hhalf : (a ^^^ b) / 2 = a / 2 ^^^ b / 2 := Nat.xor_div_two
  have hlow : (a ^^^ b) % 2 = (a % 2 + b % 2) % 2 := by
    rw [Nat.xor_mod_two_eq]
    omega
  unfold step
  rw [hhalf, hlow]
  rcases Nat.mod_two_eq_zero_or_one a with ha | ha <;>
    rcases Nat.mod_two_eq_zero_or_one b with hb | hb <;> simp [ha, hb]
  · ac_rfl
  · ac_rfl
  · -- the polynomial is added twice
    have hpair : a / 2 ^^^ poly ^^^ (b / 2 ^^^ poly) = a / 2 ^^^ b / 2 ^^^ (poly ^^^ poly) :=
        by ac_rfl
    rw [hpair, Nat.xor_self, Nat.xor_zero]

theorem iterate_xor (poly n a b : Nat) :
    (step poly)^[n] (a ^^^ b) = (step poly)^[n] a ^^^ (step poly)^[n] b := by
  induction n generalizing a b with
  | zero => rfl
  | succ n ih =>
    simp only [Function.iterate_succ_apply]
    rw [step_xor, ih]

theorem step_lt (hp : poly < 2 ^ w) (hs : s < 2 ^ w) : step poly s < 2 ^ w := by
  apply Nat.xor_lt_two_pow
  · omega
  · split
    · exact hp
    · exact Nat.two_pow_pos w

theorem iterate_lt (hp : poly < 2 ^ w) (hs : s < 2 ^ w) (n : Nat) : (step poly)^[n] s < 2 ^ w := by
  induction n generalizing s with
  | zero => exact hs
  | succ n ih => exact ih (step_lt hp hs)

theorem step_eq_zero (htop : 2 ^ w ≤ 2 * poly) (hs : s < 2 ^ w) (h : step poly s = 0) : s = 0 := by
  unfold step at h
  split at h
  · have := Nat.xor_eq_zero_iff.mp h
    omega
  · rw [Nat.xor_zero] at h
    omega

theorem iterate_eq_zero (hp : poly < 2 ^ w) (htop : 2 ^ w ≤ 2 * poly) (n : Nat) (hs : s < 2 ^ w)
    (h : (step poly)^[n] s = 0) : s = 0 := by
  induction n generalizing s with
  | zero => exact h
  | succ n ih => exact step_eq_zero htop hs (ih (step_lt hp hs) h)

theorem iterate_two_pow_mul (poly n s : Nat) : (step poly)^[n] (2 ^ n * s) = s := by
  induction n with
  | zero => simp
  | succ n ih =>
    have hstep : step poly (2 ^ (n + 1) * s) = 2 ^ n * s := by
      have hdouble : 2 ^ (n + 1) * s = 2 * (2 ^ n * s) := by
        rw [pow_succ, mul_comm (2 ^ n) 2, mul_assoc]
      rw [hdouble, step, Nat.mul_mod_right, if_neg (by decide), Nat.xor_zero]
      omega
    rw [Function.iterate_succ_apply, hstep, ih]

/-! ### Seeing the states through a sequence of bits -/

/-- The bits of the state `s` against the `n` bits of `S` from `t` on, the low bit of
    the state against the last of them. -/
def pairing (S : Nat) : Nat → Nat → Nat → Bool
  | 0, _, _ => false
  | n + 1, t, s => (s.testBit 0 && S.testBit (t + n)) ^^ pairing S n t (s / 2)

variable {S : Nat}

theorem pairing_succ (S n t s : Nat) :
    pairing S (n + 1) t s = ((s.testBit 0 && S.testBit (t + n)) ^^ pairing S n t (s / 2)) := rfl

theorem pairing_zero (S : Nat) : ∀ n t, pairing S n t 0 = false
  | 0, _ => rfl
  | n + 1, t => by simp [pairing, pairing_zero S n t]

theorem pairing_one (S n t : Nat) : pairing S (n + 1) t 1 = S.testBit (t + n) := by
  simp [pairing, pairing_zero]

theorem pairing_xor (S : Nat) : ∀ n t a b,
    pairing S n t (a ^^^ b) = (pairing S n t a ^^ pairing S n t b)
  | 0, _, _, _ => rfl
  | n + 1, t, a, b => by
    have hhalf : (a ^^^ b) / 2 = a / 2 ^^^ b / 2 := Nat.xor_div_two
    simp only [pairing, Nat.testBit_xor, hhalf, pairing_xor S n t]
    cases a.testBit 0 <;> cases b.testBit 0 <;> cases S.testBit (t + n) <;>
      cases pairing S n t (a / 2) <;> cases pairing S n t (b / 2) <;> rfl

theorem pairing_last (S : Nat) : ∀ n t s,
    pairing S (n + 1) t s = (pairing S n (t + 1) s ^^ (s.testBit n && S.testBit t))
  | 0, t, s => by simp [pairing]
  | n + 1, t, s => by
    rw [pairing, pairing_last S n t (s / 2), pairing, ← Nat.testBit_succ, Bool.xor_assoc,
      add_right_comm t 1 n, add_assoc t n 1]

/-- The recurrence of the polynomial, for all places at once. -/
def feedback (S : Nat) : Nat → Nat → Nat
  | 0, _ => 0
  | n + 1, p => (if p % 2 = 1 then S >>> n else 0) ^^^ feedback S n (p / 2)

theorem testBit_feedback (S t : Nat) : ∀ n p, (feedback S n p).testBit t = pairing S n t p
  | 0, _ => by simp [feedback, pairing]
  | n + 1, p => by
    rw [feedback, pairing, Nat.testBit_xor, testBit_feedback S t n]
    by_cases h : p % 2 = 1
    · simp [h, Nat.testBit_shiftRight, add_comm]
    · simp [h]

/-- The first `M` places of the sequence `S` satisfy the recurrence of `poly`. -/
def Recurs (poly w M S : Nat) : Prop := (feedback S w poly ^^^ S >>> w) % 2 ^ M = 0

theorem Recurs.pairing_poly (h : Recurs poly w M S) (ht : t < M) :
    pairing S w t poly = S.testBit (t + w) := by
  have hbit : ((feedback S w poly ^^^ S >>> w) % 2 ^ M).testBit t = false := by
    rw [h, Nat.zero_testBit]
  rw [Nat.testBit_mod_two_pow, Nat.testBit_xor, testBit_feedback, Nat.testBit_shiftRight] at hbit
  simp only [ht, decide_true, Bool.true_and, bne_eq_false_iff_eq] at hbit
  rw [hbit, add_comm]

theorem Recurs.pairing_step (h : Recurs poly w M S) (ht : t < M) (hs : s < 2 ^ w) :
    pairing S w t (step poly s) = pairing S w (t + 1) s := by
  cases w with
  | zero => rfl
  | succ w =>
    have htop : (s / 2).testBit w = false := by
      rw [← Nat.testBit_succ]
      exact Nat.testBit_lt_two_pow hs
    rw [step, pairing_xor, pairing_last S w t (s / 2), htop, pairing_succ S w (t + 1) s]
    by_cases hodd : s % 2 = 1
    · rw [if_pos hodd, h.pairing_poly ht, Bool.xor_comm, add_right_comm t 1 w, add_assoc]
      simp [hodd]
    · rw [if_neg hodd, pairing_zero]
      simp [hodd]

theorem Recurs.pairing_iterate (h : Recurs poly w M S) (hp : poly < 2 ^ w) (n t : Nat)
    (ht : t + n ≤ M) (hs : s < 2 ^ w) :
    pairing S w t ((step poly)^[n] s) = pairing S w (t + n) s := by
  induction n generalizing s with
  | zero => rfl
  | succ n ih =>
    rw [Function.iterate_succ_apply, ih (by omega) (step_lt hp hs), h.pairing_step (by omega) hs,
      add_assoc]

/-! ### Windows that differ -/

/-- Add to every bit the bit `i` places above it. -/
def smear (i z : Nat) : Nat := z ||| z >>> i

/-- Every bit of `z'` comes from one of the `k` bits of `z` from its place on. -/
def Covers (k z z' : Nat) : Prop :=
  ∀ p, z'.testBit p = true → ∃ q, q < k ∧ z.testBit (p + q) = true

theorem covers_self (z : Nat) : Covers 1 z z :=
  fun _ h => ⟨0, Nat.one_pos, h⟩

theorem Covers.smear {k z z' : Nat} (h : Covers k z z') (i : Nat) :
    Covers (k + i) z (smear i z') := by
  intro p hp
  rw [Crc.smear, Nat.testBit_or, Nat.testBit_shiftRight, Bool.or_eq_true] at hp
  rcases hp with hp | hp
  · obtain ⟨q, hq, hbit⟩ := h p hp
    exact ⟨q, by omega, hbit⟩
  · obtain ⟨q, hq, hbit⟩ := h (i + p) hp
    refine ⟨i + q, by omega, ?_⟩
    rwa [← add_assoc, add_comm p i]

/-- In each of the first places, counted by the ones of `mask`, a window of 31 bits of
    `z` has a one. -/
def windowsSet (mask z : Nat) : Bool :=
  Nat.beq (Nat.land (smear 15 (smear 8 (smear 4 (smear 2 (smear 1 z))))) mask) mask

theorem windowsSet_one {z : Nat} (h : windowsSet (2 ^ n - 1) z = true) (hp : p < n) :
    ∃ q, q < 31 ∧ z.testBit (p + q) = true := by
  have hmask := Nat.eq_of_beq_eq_true h
  have hbit := congrArg (fun m => m.testBit p) hmask
  simp only [Nat.land_eq, Nat.testBit_and, Nat.testBit_two_pow_sub_one, hp, decide_true,
    Bool.and_true] at hbit
  exact (((((covers_self z).smear 1).smear 2).smear 4).smear 8).smear 15 p hbit

/-- No window of 31 bits among the first `n` of `s` is repeated at distance `d`. -/
def differAt (ones s d : Nat) : Bool := windowsSet (ones >>> d) (Nat.xor s (s >>> d))

/-- `differAt` for the `2 ^ k` distances from `d` on. -/
def differFrom (ones s : Nat) : Nat → Nat → Bool
  | 0, d => differAt ones s d
  | k + 1, d => differFrom ones s k d && differFrom ones s k (d + 2 ^ k)

theorem differFrom_at {ones s : Nat} : ∀ {k d e}, differFrom ones s k d = true → d ≤ e →
    e < d + 2 ^ k → differAt ones s e = true
  | 0, d, e, h, hde, hed => by
    have : e = d := by omega
    exact this ▸ h
  | k + 1, d, e, h, hde, hed => by
    rw [differFrom, Bool.and_eq_true] at h
    by_cases hlow : e < d + 2 ^ k
    · exact differFrom_at h.1 hde hlow
    · exact differFrom_at h.2 (by omega) (by omega)

theorem differAt_window {d : Nat} (h : differAt (2 ^ n - 1) s d = true) (hp : p + d < n) :
    ∃ q, q < 31 ∧ s.testBit (p + q) ≠ s.testBit (p + d + q) := by
  have hones : (2 ^ n - 1) >>> d = 2 ^ (n - d) - 1 := by
    apply Nat.eq_of_testBit_eq
    intro i
    rw [Nat.testBit_shiftRight, Nat.testBit_two_pow_sub_one, Nat.testBit_two_pow_sub_one]
    congr 1
    rw [eq_iff_iff]
    omega
  rw [differAt, hones] at h
  obtain ⟨q, hq, hbit⟩ := windowsSet_one h (show p < n - d by omega)
  refine ⟨q, hq, ?_⟩
  rw [Nat.xor_eq, Nat.testBit_xor, Nat.testBit_shiftRight, bne_iff_ne] at hbit
  rwa [show p + d + q = d + (p + q) by omega]

/-- No two of the first `n` states of a single bit are equal, and no two differ in the
    low bit only. -/
theorem Recurs.iterate_one_ne {a b : Nat} (h : Recurs poly 32 M S) (hp : poly < 2 ^ 32)
    (hzero : (S >>> 32) % 2 ^ 31 = 0) (hM : n + 31 ≤ M)
    (hdiff : ∀ d, 0 < d → d < n → differAt (2 ^ n - 1) (S >>> 32) d = true) (hab : a < b)
    (hb : b < n) : 1 < (step poly)^[a] 1 ^^^ (step poly)^[b] 1 := by
  have hstart : ∀ q, q < 31 → S.testBit (q + 1 + 31) = false := by
    intro q hq
    have hbit := congrArg (fun m => m.testBit q) hzero
    simp only [Nat.testBit_mod_two_pow, hq, decide_true, Bool.true_and, Nat.zero_testBit,
      Nat.testBit_shiftRight] at hbit
    rwa [show q + 1 + 31 = 32 + q by omega]
  have hsee : ∀ q c, q < 31 → c < n →
      pairing S 32 (q + 1) ((step poly)^[c] 1) = (S >>> 32).testBit (c + q) := by
    intro q c hq hc
    rw [h.pairing_iterate hp c (q + 1) (by omega) (by decide), pairing_one,
      Nat.testBit_shiftRight, show q + 1 + c + 31 = 32 + (c + q) by omega]
  obtain ⟨q, hq, hne⟩ := differAt_window (p := a) (hdiff (b - a) (by omega) (by omega)) (by omega)
  rw [show a + (b - a) = b by omega, ← hsee q a hq (by omega), ← hsee q b hq hb] at hne
  -- a difference of at most the low bit is not seen after the first place
  by_contra hle
  have hsame : pairing S 32 (q + 1) ((step poly)^[a] 1 ^^^ (step poly)^[b] 1) = false := by
    rcases Nat.le_one_iff_eq_zero_or_eq_one.mp (not_lt.mp hle) with h0 | h1
    · rw [h0, pairing_zero]
    · rw [h1, pairing_one, hstart q hq]
  rw [pairing_xor] at hsame
  exact hne (by simpa using hsame)

end Ocfs2Tools.Crc
