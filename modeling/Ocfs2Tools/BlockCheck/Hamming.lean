import Ocfs2Tools.BlockCheck.Model

/-!
# The Hamming code of a block

The code bit of a data bit is its place among the numbers that are not powers of two
(`calcCodeBit_spec`), the parity of a block is the exclusive or of the code bits of
the bits set in it (`hammingEncodeBlock_eq`), and fixing a code bit flips the data bit
it belongs to (`hammingFixBlock_codeBit`).
-/

namespace Ocfs2Tools.BlockCheck

open Bitops

variable {lo m s b0 b1 b2 b3 b p k b' p' k' : Nat}

/-! ### The weight of a word -/

/-- One line of `hc_hweight32`: add the fields of the word under the mask to their
    neighbours `s` bits above. -/
def gather (m s w : Nat) : Nat := (w &&& m) + (w >>> s &&& m)

theorem shift_and_split (hlo : lo < 256) (hm : m * 2 ^ s < 256) (hi m' : Nat) :
    (lo + 256 * hi) >>> s &&& (m + 256 * m') = (lo >>> s &&& m) + 256 * (hi >>> s &&& m') := by
  have hm256 : m < 256 := lt_of_le_of_lt (Nat.le_mul_of_pos_right m (Nat.two_pow_pos s)) hm
  have hland := Nat.mod_add_div ((lo + 256 * hi) >>> s &&& (m + 256 * m')) (2 ^ 8)
  have hhigh : (lo + 256 * hi) >>> s / 2 ^ 8 = hi >>> s := by
    rw [Nat.shiftRight_eq_div_pow, Nat.shiftRight_eq_div_pow, Nat.div_div_eq_div_mul,
      mul_comm (2 ^ s), ← Nat.div_div_eq_div_mul, show (lo + 256 * hi) / 2 ^ 8 = hi by omega]
  -- the bits that come down from the next byte are not in the mask
  have hlow : (lo + 256 * hi) >>> s % 2 ^ 8 &&& m = lo >>> s &&& m := by
    apply Nat.eq_of_testBit_eq
    intro i
    rw [Nat.testBit_and, Nat.testBit_and, Nat.testBit_mod_two_pow, Nat.testBit_shiftRight,
      Nat.testBit_shiftRight]
    cases hbit : m.testBit i with
    | false => simp
    | true =>
      have hge : 2 ^ i ≤ m := Nat.ge_two_pow_of_testBit hbit
      have his : s + i < 8 := by
        have : 2 ^ (s + i) < 2 ^ 8 := by
          rw [Nat.pow_add, mul_comm]
          exact lt_of_le_of_lt (Nat.mul_le_mul_right _ hge) hm
        exact (Nat.pow_lt_pow_iff_right (by decide)).mp this
      have hlo' : lo = (lo + 256 * hi) % 2 ^ 8 := by omega
      conv_rhs => rw [hlo', Nat.testBit_mod_two_pow]
      simp [his, show i < 8 by omega]
  rw [Nat.and_mod_two_pow, Nat.and_div_two_pow, hhigh, show (m + 256 * m') % 2 ^ 8 = m by omega,
    show (m + 256 * m') / 2 ^ 8 = m' by omega, hlow] at hland
  exact hland.symm

theorem and_split (hlo : lo < 256) (hm : m < 256) (hi m' : Nat) :
    (lo + 256 * hi) &&& (m + 256 * m') = (lo &&& m) + 256 * (hi &&& m') :=
  shift_and_split (s := 0) hlo (by omega) hi m'

theorem gather_split (hlo : lo < 256) (hm : m * 2 ^ s < 256) (hi m' : Nat) :
    gather (m + 256 * m') s (lo + 256 * hi) = gather m s lo + 256 * gather m' s hi := by
  have hm256 : m < 256 := lt_of_le_of_lt (Nat.le_mul_of_pos_right m (Nat.two_pow_pos s)) hm
  rw [gather, and_split hlo hm256, shift_and_split hlo hm, gather, gather]
  omega

def word (b0 b1 b2 b3 : Nat) : Nat := b0 + 256 * (b1 + 256 * (b2 + 256 * b3))

theorem gather_word (h0 : b0 < 256) (h1 : b1 < 256) (h2 : b2 < 256) (hm : m * 2 ^ s < 256) :
    gather (word m m m m) s (word b0 b1 b2 b3) =
      word (gather m s b0) (gather m s b1) (gather m s b2) (gather m s b3) := by
  rw [word, word, gather_split h0 hm, gather_split h1 hm, gather_split h2 hm, word]

/-- The weight of a byte, by the first three lines of `hc_hweight32`. -/
def byteWeight (b : Nat) : Nat := gather 0x0f 4 (gather 0x33 2 (gather 0x55 1 b))

theorem byteWeight_spec (hb : b < 256) :
    gather 0x55 1 b < 256 ∧ gather 0x33 2 (gather 0x55 1 b) < 256 ∧ byteWeight b ≤ 8 ∧
      (byteWeight b = 0 → b = 0) ∧ (byteWeight b = 1 → ∃ p : Fin 8, b = 2 ^ p.val) := by
  have hall : ∀ b : Fin 256, gather 0x55 1 b < 256 ∧ gather 0x33 2 (gather 0x55 1 b) < 256 ∧
      byteWeight b ≤ 8 ∧ (byteWeight b = 0 → b.val = 0) ∧
      (byteWeight b = 1 → ∃ p : Fin 8, b.val = 2 ^ p.val) := by decide +kernel
  exact hall ⟨b, hb⟩

theorem gather_bytes {c0 c1 c2 c3 : Nat} (h0 : c0 ≤ 8) (h1 : c1 ≤ 8) (h2 : c2 ≤ 8) (h3 : c3 ≤ 8) :
    gather 0x0000FFFF 16 (gather 0x00FF00FF 8 (word c0 c1 c2 c3)) = c0 + c1 + c2 + c3 := by
  have hlow : ∀ c, c ≤ 8 → c &&& 255 = c := fun c hc =>
    (Nat.and_two_pow_sub_one_eq_mod c 8).trans (Nat.mod_eq_of_lt (by omega))
  have hmask : ∀ d0 d1 d2 d3, d0 ≤ 8 → d1 ≤ 8 → d2 ≤ 8 → d3 ≤ 8 →
      word d0 d1 d2 d3 &&& 0x00FF00FF = d0 + 65536 * d2 := by
    intro d0 d1 d2 d3 hd0 hd1 hd2 hd3
    rw [show 0x00FF00FF = 255 + 256 * (0 + 256 * (255 + 256 * 0)) from rfl, word,
      and_split (by omega) (by decide), and_split (by omega) (by decide),
      and_split (by omega) (by decide), hlow d0 hd0, hlow d2 hd2, Nat.and_zero, Nat.and_zero]
    omega
  have hfirst : gather 0x00FF00FF 8 (word c0 c1 c2 c3) = (c0 + c1) + 65536 * (c2 + c3) := by
    have hshift : word c0 c1 c2 c3 >>> 8 = word c1 c2 c3 0 := by
      rw [word, word]
      omega
    rw [gather, hshift, hmask c0 c1 c2 c3 h0 h1 h2 h3, hmask c1 c2 c3 0 h1 h2 h3 (by decide)]
    omega
  rw [gather, show 0x0000FFFF = 2 ^ 16 - 1 from rfl, Nat.and_two_pow_sub_one_eq_mod,
    Nat.and_two_pow_sub_one_eq_mod]
  omega

theorem hcHweight32_eq (h0 : b0 < 256) (h1 : b1 < 256) (h2 : b2 < 256) (h3 : b3 < 256) :
    hcHweight32 (word b0 b1 b2 b3) =
      byteWeight b0 + byteWeight b1 + byteWeight b2 + byteWeight b3 := by
  obtain ⟨ha0, hb0, hc0, -⟩ := byteWeight_spec h0
  obtain ⟨ha1, hb1, hc1, -⟩ := byteWeight_spec h1
  obtain ⟨ha2, hb2, hc2, -⟩ := byteWeight_spec h2
  obtain ⟨-, -, hc3, -⟩ := byteWeight_spec h3
  show gather 0x0000FFFF 16 (gather 0x00FF00FF 8 (gather (word 0x0f 0x0f 0x0f 0x0f) 4
    (gather (word 0x33 0x33 0x33 0x33) 2 (gather (word 0x55 0x55 0x55 0x55) 1
      (word b0 b1 b2 b3))))) = _
  rw [gather_word h0 h1 h2 (by decide), gather_word ha0 ha1 ha2 (by decide),
    gather_word hb0 hb1 hb2 (by decide)]
  exact gather_bytes hc0 hc1 hc2 hc3

theorem two_pow_of_hcHweight32 {w : Nat} (hw : w < 2 ^ 32) (h : hcHweight32 w = 1) :
    ∃ p, w = 2 ^ p := by
  obtain ⟨b0, b1, b2, b3, h0, h1, h2, h3, rfl⟩ : ∃ b0 b1 b2 b3, b0 < 256 ∧ b1 < 256 ∧ b2 < 256 ∧
      b3 < 256 ∧ w = word b0 b1 b2 b3 :=
    ⟨w % 256, w / 256 % 256, w / 65536 % 256, w / 16777216, by omega, by omega, by omega, by omega,
      by rw [word]; omega⟩
  obtain ⟨-, -, -, hz0, hp0⟩ := byteWeight_spec h0
  obtain ⟨-, -, -, hz1, hp1⟩ := byteWeight_spec h1
  obtain ⟨-, -, -, hz2, hp2⟩ := byteWeight_spec h2
  obtain ⟨-, -, -, hz3, hp3⟩ := byteWeight_spec h3
  rw [hcHweight32_eq h0 h1 h2 h3] at h
  have hcases : byteWeight b0 = 1 ∨ byteWeight b1 = 1 ∨ byteWeight b2 = 1 ∨ byteWeight b3 = 1 := by
    omega
  rcases hcases with hone | hone | hone | hone
  · obtain ⟨p, rfl⟩ := hp0 hone
    refine ⟨p, ?_⟩
    rw [hz1 (by omega), hz2 (by omega), hz3 (by omega)]
    rfl
  · obtain ⟨p, rfl⟩ := hp1 hone
    refine ⟨p + 8, ?_⟩
    rw [word, hz0 (by omega), hz2 (by omega), hz3 (by omega), Nat.pow_add]
    omega
  · obtain ⟨p, rfl⟩ := hp2 hone
    refine ⟨p + 16, ?_⟩
    rw [word, hz0 (by omega), hz1 (by omega), hz3 (by omega), Nat.pow_add]
    omega
  · obtain ⟨p, rfl⟩ := hp3 hone
    refine ⟨p + 24, ?_⟩
    rw [word, hz0 (by omega), hz1 (by omega), hz2 (by omega), Nat.pow_add]
    omega

theorem hcHweight32_two_pow (hp : p < 32) : hcHweight32 (2 ^ p) = 1 := by
  interval_cases p <;> rfl

/-! ### Code bits -/

def codeBit (k : Nat) : Nat := (calcCodeBit k 0).1

/-- The number of parity bits below it. -/
def parityBits (k : Nat) : Nat := (calcCodeBit k 0).2

/-- The loop of `calc_code_bit` ends at `p` for data bit `k`. -/
def Stops (k p : Nat) : Prop := k + 2 + p ≤ 2 ^ p

theorem codeLoop_eq {k P : Nat} (hP : Stops k P) : ∀ fuel p, p ≤ P → P ≤ p + fuel →
    (∀ q, p ≤ q → q < P → ¬ Stops k q) → codeLoop fuel p (k + 1 + p) = (k + 1 + P, P)
  | 0, p, hle, hfuel, _ => by
    obtain rfl : p = P := by omega
    rfl
  | fuel + 1, p, hle, hfuel, hmin => by
    rw [codeLoop]
    split
    · have hne : p ≠ P := by
        rintro rfl
        rw [Stops] at hP
        omega
      exact codeLoop_eq hP fuel (p + 1) (by omega) (by omega) fun q hq => hmin q (by omega)
    · obtain rfl : p = P := by
        by_contra hne
        apply hmin p (le_refl p) (by omega)
        rw [Stops]
        omega
      rfl

/-- What `calc_code_bit` computes for the data bits it is used for. -/
structure CodeOf (k b p : Nat) : Prop where
  eq : b = k + 1 + p
  stops : Stops k p
  least : ∀ q, q < p → ¬ Stops k q

theorem calcCodeBit_spec (hk : k < 2 ^ 31) : CodeOf k (codeBit k) (parityBits k) := by
  have hex : ∃ p, Stops k p := ⟨32, by rw [Stops]; omega⟩
  obtain ⟨P, hP, hmin⟩ : ∃ P, Stops k P ∧ ∀ q, q < P → ¬ Stops k q := by
    classical
    exact ⟨Nat.find hex, Nat.find_spec hex, fun q => Nat.find_min hex⟩
  have hle : P ≤ 32 := by
    by_contra hlt
    exact hmin 32 (by omega) (by rw [Stops]; omega)
  have hrun : calcCodeBit k 0 = (k + 1 + P, P) :=
    codeLoop_eq hP 32 0 (Nat.zero_le P) (by omega) fun q _ => hmin q
  rw [codeBit, parityBits, hrun]
  exact ⟨rfl, hP, hmin⟩

theorem parityBits_le (hk : k < 2 ^ 31) : parityBits k ≤ 32 := by
  by_contra hlt
  exact (calcCodeBit_spec hk).least 32 (by omega) (by rw [Stops]; omega)

theorem CodeOf.unique (h : CodeOf k b p) (h' : CodeOf k b' p') : b = b' := by
  have hp : p = p' := by
    rcases Nat.lt_trichotomy p p' with hlt | heq | hgt
    · exact absurd h.stops (h'.least p hlt)
    · exact heq
    · exact absurd h'.stops (h.least p' hgt)
  rw [h.eq, h'.eq, hp]

theorem CodeOf.mono (h : CodeOf k b p) (h' : CodeOf k' b' p') (hk : k ≤ k') : p ≤ p' := by
  by_contra hlt
  have hstops := h'.stops
  apply h.least p' (not_le.mp hlt)
  rw [Stops] at hstops ⊢
  omega

theorem CodeOf.between (h : CodeOf k b p) : b < 2 ^ p ∧ 2 ^ p < 2 * b := by
  have hstops := h.stops
  have heq := h.eq
  rw [Stops] at hstops
  cases p with
  | zero => omega
  | succ p =>
    have hbefore := h.least p (Nat.lt_succ_self p)
    rw [Stops] at hbefore
    omega

theorem CodeOf.ne_two_pow (h : CodeOf k b p) (q : Nat) : b ≠ 2 ^ q := by
  rintro rfl
  obtain ⟨hlt, hgt⟩ := h.between
  have hq : q < p := (Nat.pow_lt_pow_iff_right (by decide)).mp hlt
  have hp : p < q + 1 := by
    apply (Nat.pow_lt_pow_iff_right (show 1 < 2 by decide)).mp
    omega
  omega

theorem CodeOf.hcHweight32_ne (h : CodeOf k b p) (hb : b < 2 ^ 32) : hcHweight32 b ≠ 1 := by
  intro hone
  obtain ⟨q, hq⟩ := two_pow_of_hcHweight32 hb hone
  exact h.ne_two_pow q hq

theorem CodeOf.next (h : CodeOf k b p) (hb : b + 2 < 2 ^ 32) :
    (CodeOf (k + 1) (b + 1) p ∧ hcHweight32 (b + 1) ≠ 1) ∨
      (CodeOf (k + 1) (b + 2) (p + 1) ∧ hcHweight32 (b + 1) = 1) := by
  have hstops := h.stops
  have heq := h.eq
  have hleast : ∀ q, q < p → ¬ Stops (k + 1) q := by
    intro q hq hs
    apply h.least q hq
    rw [Stops] at hs ⊢
    omega
  by_cases hnext : Stops (k + 1) p
  · have hcode : CodeOf (k + 1) (b + 1) p := ⟨by omega, hnext, hleast⟩
    exact .inl ⟨hcode, hcode.hcHweight32_ne (by omega)⟩
  · have hpow : b + 1 = 2 ^ p := by
      rw [Stops] at hnext hstops
      omega
    have hp : p < 32 := (Nat.pow_lt_pow_iff_right (by decide)).mp (show 2 ^ p < 2 ^ 32 by omega)
    refine .inr ⟨⟨by omega, ?_, ?_⟩, ?_⟩
    · rw [Stops]
      omega
    · intro q hq
      by_cases hqp : q < p
      · exact hleast q hqp
      · obtain rfl : q = p := by omega
        exact hnext
    · rw [hpow]
      exact hcHweight32_two_pow hp

theorem codeBit_lt (h : k < k') (hk : k' < 2 ^ 31) : codeBit k < codeBit k' := by
  have hcode := calcCodeBit_spec (show k < 2 ^ 31 by omega)
  have hcode' := calcCodeBit_spec hk
  have hmono := hcode.mono hcode' (le_of_lt h)
  rw [hcode.eq, hcode'.eq]
  omega

theorem codeBit_inj (hk : k < 2 ^ 31) (hk' : k' < 2 ^ 31) (h : codeBit k = codeBit k') :
    k = k' := by
  rcases Nat.lt_trichotomy k k' with hlt | heq | hgt
  · have := codeBit_lt hlt hk'
    omega
  · exact heq
  · have := codeBit_lt hgt hk
    omega

theorem calcCodeBit_cached (h : k ≤ k') (hk : k' < 2 ^ 31) :
    calcCodeBit k' (parityBits k) = (codeBit k', parityBits k') := by
  have hcode := calcCodeBit_spec (show k < 2 ^ 31 by omega)
  have hcode' := calcCodeBit_spec hk
  have hle := parityBits_le hk
  rw [calcCodeBit, codeLoop_eq hcode'.stops 32 _ (hcode.mono hcode' h) (by omega)
    fun q _ => hcode'.least q, hcode'.eq]

/-! ### Parity -/

/-- The exclusive or of the code bits of the first `n` bits that are set. -/
def codeSum (bit : Nat → Bool) : Nat → Nat
  | 0 => 0
  | n + 1 => codeSum bit n ^^^ (if bit n then codeBit n else 0)

theorem codeSum_clear {bit : Nat → Bool} {i : Nat} : ∀ n, i ≤ n →
    (∀ k, i ≤ k → k < n → bit k = false) → codeSum bit n = codeSum bit i
  | 0, hi, _ => by
    obtain rfl : i = 0 := by omega
    rfl
  | n + 1, hi, h => by
    by_cases hn : i = n + 1
    · rw [hn]
    · rw [codeSum, h n (by omega) (Nat.lt_succ_self n),
        codeSum_clear n (by omega) fun k h1 h2 => h k h1 (by omega)]
      simp

theorem codeSum_flip {bit bit' : Nat → Bool} {i : Nat}
    (h : ∀ k, bit' k = (bit k ^^ decide (k = i))) : ∀ n,
    codeSum bit' n = codeSum bit n ^^^ (if i < n then codeBit i else 0)
  | 0 => by simp [codeSum]
  | n + 1 => by
    rw [codeSum, codeSum, codeSum_flip h n, h n]
    rcases Nat.lt_trichotomy i n with hlt | rfl | hgt
    · have hne : ¬ n = i := by omega
      simp only [hlt, Nat.lt_succ_of_lt hlt, hne, decide_false, Bool.xor_false, if_true]
      ac_rfl
    · cases bit i with
      | false => simp
      | true => simp
    · have hne : ¬ n = i := by omega
      have hnot : ¬ i < n + 1 := by omega
      simp [Nat.not_lt_of_gt hgt, hne, hnot]

theorem codeSum_lt {bit : Nat → Bool} {w : Nat} : ∀ n, (∀ k, k < n → codeBit k < 2 ^ w) →
    codeSum bit n < 2 ^ w
  | 0, _ => Nat.two_pow_pos w
  | n + 1, h => by
    apply Nat.xor_lt_two_pow (codeSum_lt n fun k hk => h k (by omega))
    split
    · exact h n (Nat.lt_succ_self n)
    · exact Nat.two_pow_pos w

/-- The loop of the encoder at bit `i`, with the parity of the bits below `i` and a
    cache that is good from there on. -/
theorem encodeLoop_eq {data : List UInt8} {d : Nat} (nr : Nat) (bit : Nat → Bool)
    (hd : nr + d < 2 ^ 31) (hdata : ∀ j < d, bit (nr + j) = testBit j data) : ∀ fuel i p, i ≤ d →
      d < i + fuel →
    (∀ k, nr + i ≤ k → k < 2 ^ 31 → calcCodeBit k p = (codeBit k, parityBits k)) →
    encodeLoop data d nr fuel i p (codeSum bit (nr + i)) = codeSum bit (nr + d)
  | 0, i, p, hi, hfuel, _ => by omega
  | fuel + 1, i, p, hi, hfuel, hp => by
    obtain ⟨hclear, hset⟩ := findNextBitSet_spec data hi
    rw [encodeLoop]
    generalize findNextBitSet data d i = r at hclear hset
    have hskip : ∀ {n}, n ≤ nr + min r d → ∀ k, nr + i ≤ k → k < n → bit k = false := by
      intro n hn k h1 h2
      rw [show k = nr + (k - nr) by omega, hdata _ (by omega), hclear _ (by omega) (by omega)]
    simp only []
    split
    · rename_i hr
      obtain ⟨hir, hbit⟩ := hset hr
      have hsum : codeSum bit (nr + i) ^^^ codeBit (nr + r) = codeSum bit (nr + (r + 1)) := by
        rw [← add_assoc, codeSum, codeSum_clear (nr + r) (by omega) (hskip (by omega)),
          hdata r hr, if_pos hbit]
      rw [hp (nr + r) (by omega) (by omega), hsum]
      exact encodeLoop_eq nr bit hd hdata fuel (r + 1) _ (by omega) (by omega) fun k hk =>
        calcCodeBit_cached (by omega)
    · rename_i hr
      exact (codeSum_clear (nr + d) (by omega) (hskip (by omega))).symm

theorem hammingEncode_eq {data : List UInt8} {d : Nat} (nr : Nat) (bit : Nat → Bool) (hpos : 0 < d)
    (hd : nr + d < 2 ^ 31) (hdata : ∀ j < d, bit (nr + j) = testBit j data) :
    hammingEncode (codeSum bit nr) data d nr = some (codeSum bit (nr + d)) := by
  rw [hammingEncode, if_neg (by omega)]
  exact congrArg some (encodeLoop_eq nr bit hd hdata _ 0 0 (Nat.zero_le _) (by omega)
    fun _ _ _ => rfl)

theorem hammingEncodeBlock_eq {data : List UInt8} (hpos : 0 < data.length)
    (hlen : data.length * 8 < 2 ^ 31) :
    hammingEncodeBlock data = some (codeSum (fun j => testBit j data) (data.length * 8)) := by
  have h := hammingEncode_eq 0 (testBit · data) (by omega : 0 < data.length * 8) (by omega)
    fun j _ => by rw [zero_add]
  rwa [zero_add] at h

/-! ### Repair -/

theorem skipParity_next (hk : k + 1 < 2 ^ 31) : skipParity 3 (codeBit k + 1) = codeBit (k + 1) := by
  have hcode := calcCodeBit_spec (show k < 2 ^ 31 by omega)
  have hcode' := calcCodeBit_spec hk
  have hsmall := parityBits_le (show k < 2 ^ 31 by omega)
  have hb : codeBit k + 2 < 2 ^ 32 := by
    rw [hcode.eq]
    omega
  rcases hcode.next hb with ⟨hnext, hne⟩ | ⟨hnext, hone⟩
  · rw [skipParity, if_neg hne]
    exact hnext.unique hcode'
  · rw [skipParity, if_pos hone, skipParity, if_neg (hnext.hcHweight32_ne hb)]
    exact hnext.unique hcode'

theorem codeBit_bound (hk : k < 2 ^ 31) : codeBit k < 2 ^ 32 := by
  have hcode := calcCodeBit_spec hk
  have hsmall := parityBits_le hk
  rw [hcode.eq]
  omega

theorem fixLoop_eq (fix nr : Nat) (data : List UInt8) : ∀ left i b, nr + i + left < 2 ^ 31 →
    skipParity 3 b = codeBit (nr + i) → (∃ k, i ≤ k ∧ k < i + left ∧ codeBit (nr + k) = fix ∧
      fixLoop fix data left i b = flipBit k data) ∨
      ((∀ k, i ≤ k → k < i + left → codeBit (nr + k) ≠ fix) ∧ fixLoop fix data left i b = data)
  | 0, i, b, _, _ => .inr ⟨fun k h1 h2 => by omega, rfl⟩
  | left + 1, i, b, hi, hb => by
    rw [fixLoop]
    simp only [hb]
    split
    · rename_i hfix
      exact .inl ⟨i, le_refl i, by omega, hfix, flipBit_eq i data⟩
    · rename_i hne
      rcases fixLoop_eq fix nr data left (i + 1) (codeBit (nr + i) + 1) (by omega)
        (skipParity_next (by omega)) with ⟨k, h1, h2, hk, hrun⟩ | ⟨hnone, hrun⟩
      · exact .inl ⟨k, by omega, by omega, hk, hrun⟩
      · refine .inr ⟨fun k h1 h2 => ?_, hrun⟩
        by_cases hki : k = i
        · rw [hki]
          exact hne
        · exact hnone k (by omega) (by omega)

theorem hammingFix_cases (data : List UInt8) {d : Nat} (nr : Nat) (hpos : 0 < d)
    (hlen : nr + d < 2 ^ 31 - 1) (fix : Nat) :
    (∃ k, k < d ∧ codeBit (nr + k) = fix ∧ hammingFix data d nr fix = some (flipBit k data)) ∨
    ((∀ k, k < d → codeBit (nr + k) ≠ fix) ∧ hammingFix data d nr fix = some data) := by
  rw [hammingFix, if_neg (by omega)]
  split
  · rename_i hone
    refine .inr ⟨fun k hk hfix => ?_, rfl⟩
    exact (calcCodeBit_spec (by omega)).hcHweight32_ne (codeBit_bound (by omega)) (hfix ▸ hone)
  split
  · rename_i hge
    refine .inr ⟨fun k hk hfix => ?_, rfl⟩
    have hlt : codeBit (nr + k) < codeBit (nr + d) := codeBit_lt (by omega) (by omega)
    change codeBit (nr + d) ≤ fix at hge
    omega
  simp only []
  split
  · rename_i hlt
    change fix < codeBit nr at hlt
    refine .inr ⟨fun k hk hfix => ?_, rfl⟩
    cases k with
    | zero =>
      rw [add_zero] at hfix
      omega
    | succ k =>
      have := codeBit_lt (show nr < nr + (k + 1) by omega) (by omega)
      omega
  · have hstart : skipParity 3 (codeBit nr) = codeBit (nr + 0) := by
      rw [skipParity, if_neg, add_zero]
      exact (calcCodeBit_spec (by omega)).hcHweight32_ne (codeBit_bound (by omega))
    rcases fixLoop_eq fix nr data d 0 (codeBit nr) (by omega) hstart with
      ⟨k, -, hk, hfix, hrun⟩ | ⟨hnone, hrun⟩
    · exact .inl ⟨k, by omega, hfix, congrArg some hrun⟩
    · exact .inr ⟨fun k hk => hnone k (Nat.zero_le k) (by omega), congrArg some hrun⟩

theorem hammingFixBlock_cases (data : List UInt8) (hpos : 0 < data.length)
    (hlen : data.length * 8 < 2 ^ 31 - 1) (fix : Nat) :
    (∃ k, k < data.length * 8 ∧ codeBit k = fix ∧
      hammingFixBlock data fix = some (flipBit k data)) ∨
    ((∀ k, k < data.length * 8 → codeBit k ≠ fix) ∧ hammingFixBlock data fix = some data) := by
  have h := hammingFix_cases data 0 (by omega : 0 < data.length * 8) (by omega) fix
  simp only [zero_add] at h
  exact h

end Ocfs2Tools.BlockCheck
