import Ocfs2Tools.BlockCheck.Hamming

/-!
# The Hamming code over hunks

`ocfs2_hamming_encode` and `ocfs2_hamming_fix` may be called for one hunk of a buffer after the
other, with the number of bits before it. Place `i` of the code, the one of data bit `i`, is the
`i`-th number that is not a power of two, counted from zero.
-/

namespace Ocfs2Tools.BlockCheck

open List Bitops

/-- `calc_parity_bits_orig`; zero if there are too many bits. -/
def calcParityBitsOrig (d : Nat) : Nat :=
  ((range' 1 31).find? fun p => (d + p + 1) % 2 ^ 32 ≤ 2 ^ p).getD 0

/-- The loop over the parity bits that check code bit `b`. -/
def parityLoop (b p parity : Nat) : Nat :=
  (range p).foldl (fun parity j => if b &&& 2 ^ j ≠ 0 then parity ^^^ 2 ^ j else parity) parity

/-- The loop of `hamming_encode_orig`; `calc_code_bit_orig` has no cache. -/
def encodeOrigLoop (data : List UInt8) (d nr p : Nat) : Nat → Nat → Nat → Nat
  | 0, _, parity => parity
  | fuel + 1, i, parity =>
    let i := findNextBitSet data d i
    if i < d then
      encodeOrigLoop data d nr p fuel (i + 1) (parityLoop (calcCodeBit (nr + i) 0).1 p parity)
    else parity

def hammingEncodeOrig (parity : Nat) (data : List UInt8) (d nr : Nat) : Option Nat :=
  let p := calcParityBitsOrig d
  if p = 0 then none else some (encodeOrigLoop data d nr p (d + 1) 0 parity)

/-- One call of `ocfs2_hamming_encode` for each hunk. -/
def encodeHunks : List (List UInt8) → Nat → Nat → Option Nat
  | [], _, parity => some parity
  | h :: hs, nr, parity =>
    (hammingEncode parity h (h.length * 8) nr).bind (encodeHunks hs (nr + h.length * 8))

/-- One call of `ocfs2_hamming_fix` for each hunk. -/
def fixHunks (fix : Nat) : List (List UInt8) → Nat → Option (List (List UInt8))
  | [], _ => some []
  | h :: hs, nr => do
    let h' ← hammingFix h (h.length * 8) nr fix
    let hs' ← fixHunks fix hs (nr + h.length * 8)
    some (h' :: hs')

/-! ### The places of the code -/

def NotPower (b : Nat) : Prop := 0 < b ∧ ∀ p, b ≠ 2 ^ p

noncomputable def place (i : Nat) : Nat := Nat.nth NotPower i

variable {k : Nat}

theorem codeBit_eq_place (hk : k < 2 ^ 31) : codeBit k = place k := by
  classical
  have hnot : ∀ {k}, k < 2 ^ 31 → NotPower (codeBit k) := fun hk =>
    ⟨by rw [(calcCodeBit_spec hk).eq]; omega, (calcCodeBit_spec hk).ne_two_pow⟩
  have hcount : Nat.count NotPower (codeBit k) = k := by
    induction k with
    | zero =>
      have h0 : ∀ b < 3, ¬ NotPower b := by
        intro b hb h
        have h1 := h.2 0
        have h2 := h.2 1
        have := h.1
        omega
      rw [show codeBit 0 = 3 from rfl, Nat.count_succ, Nat.count_succ, Nat.count_succ,
        if_neg (h0 0 (by decide)), if_neg (h0 1 (by decide)), if_neg (h0 2 (by decide))]
      rfl
    | succ k ih =>
      have hcode := calcCodeBit_spec (show k < 2 ^ 31 by omega)
      have hb : codeBit k + 2 < 2 ^ 32 := by
        have := parityBits_le (show k < 2 ^ 31 by omega)
        rw [hcode.eq]
        omega
      have hone : Nat.count NotPower (codeBit k + 1) = k + 1 := by
        rw [Nat.count_succ, ih (by omega), if_pos (hnot (by omega))]
      rcases hcode.next hb with ⟨hnext, -⟩ | ⟨hnext, hpow⟩
      · rw [(calcCodeBit_spec hk).unique hnext, hone]
      · obtain ⟨p, hp⟩ := two_pow_of_hcHweight32 (by omega) hpow
        rw [(calcCodeBit_spec hk).unique hnext, Nat.count_succ, hone, if_neg fun h => h.2 p hp]
  rw [place]
  conv_rhs => rw [← hcount]
  exact (Nat.nth_count (hnot hk)).symm

/-- The exclusive or of the places of the bits that are set. -/
noncomputable def hammingParity (data : List UInt8) : Nat :=
  ((range (data.length * 8)).filter (testBit · data)).foldl (fun x i => x ^^^ place i) 0

theorem codeSum_eq_foldl (bit : Nat → Bool) {n : Nat} (hn : n ≤ 2 ^ 31) :
    codeSum bit n = ((range n).filter bit).foldl (fun x i => x ^^^ place i) 0 := by
  induction n with
  | zero => rfl
  | succ n ih =>
    rw [codeSum, ih (by omega), range_succ, filter_append, foldl_append, codeBit_eq_place hn]
    cases hbit : bit n with
    | false => simp [hbit]
    | true => simp [hbit]

/-! ### The encoders -/

theorem testBit_append (a b : List UInt8) (i : Nat) : testBit i (a ++ b) =
    if i < a.length * 8 then testBit i a else testBit (i - a.length * 8) b := by
  simp only [testBit_eq]
  split
  · rw [getD_append _ _ _ _ (by omega)]
  · rw [getD_append_right _ _ _ _ (by omega),
      show (i - a.length * 8) / 8 = i / 8 - a.length by omega,
      show (i - a.length * 8) % 8 = i % 8 by omega]

theorem encodeHunks_eq (bit : Nat → Bool) : ∀ hunks nr, (∀ h ∈ hunks, h ≠ []) →
    nr + hunks.flatten.length * 8 < 2 ^ 31 →
    (∀ j < hunks.flatten.length * 8, bit (nr + j) = testBit j hunks.flatten) →
    encodeHunks hunks nr (codeSum bit nr) = some (codeSum bit (nr + hunks.flatten.length * 8))
  | [], _, _, _, _ => rfl
  | h :: hs, nr, hne, hlen, hbit => by
    have hpos : 0 < h.length := length_pos_iff.mpr (hne h mem_cons_self)
    rw [flatten_cons, length_append] at hlen hbit
    rw [encodeHunks, hammingEncode_eq nr bit (by omega) (by omega) fun j hj => by
      rw [hbit j (by omega), testBit_append, if_pos hj], Option.bind_some,
      encodeHunks_eq bit hs _ (fun h hh => hne h (mem_cons_of_mem _ hh)) (by omega) fun j hj => by
        rw [add_assoc, hbit _ (by omega), testBit_append, if_neg (by omega),
          Nat.add_sub_cancel_left],
      flatten_cons, length_append, add_mul, add_assoc]

theorem parityLoop_eq (b p parity : Nat) : parityLoop b p parity = parity ^^^ b % 2 ^ p := by
  induction p with
  | zero => simp [parityLoop, Nat.mod_one]
  | succ p ih =>
    rw [parityLoop] at ih ⊢
    rw [range_succ, foldl_append, ih]
    simp only [foldl_cons, foldl_nil, ne_eq, Nat.and_two_pow]
    apply Nat.eq_of_testBit_eq
    intro j
    by_cases hj : j = p
    · subst hj
      cases hb : b.testBit j with
      | false => simp [Nat.testBit_mod_two_pow, hb]
      | true => simp [Nat.testBit_mod_two_pow, hb]
    · have hle : decide (j ≤ p) = decide (j < p) := by
        rw [decide_eq_decide]
        omega
      cases hb : b.testBit p with
      | false => simp [Nat.testBit_mod_two_pow, hle]
      | true => simp [Nat.testBit_mod_two_pow, hle, Ne.symm hj]

theorem encodeOrigLoop_eq {data : List UInt8} {d nr p : Nat}
    (hp : ∀ i < d, codeBit (nr + i) < 2 ^ p) (hd : nr + d < 2 ^ 31) : ∀ fuel i c parity, i ≤ d →
    (∀ k, nr + i ≤ k → k < 2 ^ 31 → calcCodeBit k c = (codeBit k, parityBits k)) →
    encodeOrigLoop data d nr p fuel i parity = encodeLoop data d nr fuel i c parity
  | 0, _, _, _, _, _ => rfl
  | fuel + 1, i, c, parity, hi, hc => by
    have hset := (findNextBitSet_spec data hi).set
    rw [encodeOrigLoop, encodeLoop]
    generalize findNextBitSet data d i = r at hset
    split
    · next hr =>
      rw [hc (nr + r) (by omega) (by omega), parityLoop_eq, ← codeBit, Nat.mod_eq_of_lt (hp r hr)]
      exact encodeOrigLoop_eq hp hd fuel (r + 1) _ _ (by omega) fun k hk =>
        calcCodeBit_cached (by omega)
    · rfl

theorem hammingEncodeOrig_eq {data : List UInt8} {d : Nat} (hpos : 0 < d) (hd : d + 32 ≤ 2 ^ 31) :
    hammingEncodeOrig 0 data d 0 = hammingEncode 0 data d 0 := by
  obtain ⟨p, hfind⟩ : ∃ p, (range' 1 31).find? (fun p => (d + p + 1) % 2 ^ 32 ≤ 2 ^ p) =
      some p := by
    rw [← Option.isSome_iff_exists, find?_isSome]
    exact ⟨31, by simp, by simp; omega⟩
  have hmem := mem_range'_1.mp (mem_of_find?_eq_some hfind)
  have hp := find?_some hfind
  rw [decide_eq_true_eq, Nat.mod_eq_of_lt (by omega)] at hp
  rw [hammingEncodeOrig, calcParityBitsOrig, hfind, Option.getD_some, if_neg (by omega),
    hammingEncode, if_neg (by omega)]
  refine congrArg some (encodeOrigLoop_eq (fun i hi => ?_) (by omega) _ 0 0 0 (Nat.zero_le _)
    fun _ _ _ => rfl)
  -- the parity bits below a code bit are among those of the block
  have hcode := calcCodeBit_spec (show 0 + i < 2 ^ 31 by omega)
  have hle : parityBits (0 + i) ≤ p := by
    by_contra hlt
    apply hcode.least p (not_le.mp hlt)
    rw [Stops]
    omega
  exact lt_of_lt_of_le hcode.between.1 (Nat.pow_le_pow_right (by decide) hle)

/-! ### The repair -/

theorem fixHunks_eq (fix : Nat) : ∀ hunks nr, (∀ h ∈ hunks, h ≠ []) →
    nr + hunks.flatten.length * 8 < 2 ^ 31 - 1 →
    ∃ hunks', fixHunks fix hunks nr = some hunks' ∧ hunks'.map length = hunks.map length ∧
      ∀ j < hunks.flatten.length * 8, testBit j hunks'.flatten =
        (testBit j hunks.flatten ^^ decide (codeBit (nr + j) = fix))
  | [], _, _, _ => ⟨[], rfl, rfl, fun _ hj => by simp at hj⟩
  | h :: hs, nr, hne, hlen => by
    have hpos : 0 < h.length := length_pos_iff.mpr (hne h mem_cons_self)
    rw [flatten_cons, length_append] at hlen ⊢
    obtain ⟨h', hfix, hl, hbits⟩ : ∃ h', hammingFix h (h.length * 8) nr fix = some h' ∧
        h'.length = h.length ∧ ∀ j < h.length * 8, testBit j h' =
          (testBit j h ^^ decide (codeBit (nr + j) = fix)) := by
      rcases hammingFix_cases h nr (by omega : 0 < h.length * 8) (by omega) fix with
        ⟨k, hk, hcode, hrun⟩ | ⟨hnone, hrun⟩
      · refine ⟨_, hrun, length_flipBit k h, fun j hj => ?_⟩
        rw [testBit_flipBit (by omega)]
        congr 2
        rw [eq_iff_iff, ← hcode]
        constructor
        · rintro rfl
          rfl
        · intro heq
          have := codeBit_inj (by omega) (by omega) heq
          omega
      · exact ⟨h, hrun, rfl, fun j hj => by simp [hnone j hj]⟩
    obtain ⟨hs', hrest, hls, hrbits⟩ := fixHunks_eq fix hs (nr + h.length * 8)
      (fun h hh => hne h (mem_cons_of_mem _ hh)) (by omega)
    refine ⟨h' :: hs', by simp [fixHunks, hfix, hrest], by simp [hl, hls], fun j hj => ?_⟩
    rw [flatten_cons, testBit_append, testBit_append, hl]
    split
    · next hlt => exact hbits j hlt
    · next hge =>
      rw [hrbits _ (by omega), show nr + h.length * 8 + (j - h.length * 8) = nr + j by omega]

/-- **Encoding and fixing a buffer in hunks** is the same as in one piece, and the cached encoder
    computes what the original one does. -/
theorem hamming_hunks (hunks : List (List UInt8)) (fix : Nat) (hne : hunks ≠ [])
    (hpos : ∀ h ∈ hunks, h ≠ []) (hlen : hunks.flatten.length * 8 + 32 ≤ 2 ^ 31) :
    encodeHunks hunks 0 0 = some (hammingParity hunks.flatten) ∧
    hammingEncodeBlock hunks.flatten = some (hammingParity hunks.flatten) ∧
    hammingEncodeOrig 0 hunks.flatten (hunks.flatten.length * 8) 0 =
      some (hammingParity hunks.flatten) ∧
    ∃ hunks', fixHunks fix hunks 0 = some hunks' ∧ hunks'.map length = hunks.map length ∧
      ∀ i < hunks.flatten.length * 8, testBit i hunks'.flatten =
        (testBit i hunks.flatten ^^ decide (place i = fix)) := by
  have hflat : 0 < hunks.flatten.length := by
    obtain ⟨h, hs, rfl⟩ := exists_cons_of_ne_nil hne
    have := length_pos_iff.mpr (hpos h mem_cons_self)
    rw [flatten_cons, length_append]
    omega
  have hblock := hammingEncodeBlock_eq hflat (by omega)
  have hparity := codeSum_eq_foldl (testBit · hunks.flatten)
    (by omega : hunks.flatten.length * 8 ≤ 2 ^ 31)
  rw [hparity] at hblock
  have hhunks := encodeHunks_eq (testBit · hunks.flatten) hunks 0 hpos (by omega)
    fun j _ => by rw [zero_add]
  rw [zero_add, hparity] at hhunks
  obtain ⟨hunks', hfix, hl, hbits⟩ := fixHunks_eq fix hunks 0 hpos (by omega)
  refine ⟨hhunks, hblock, (hammingEncodeOrig_eq (by omega) hlen).trans hblock, hunks', hfix, hl,
    fun i hi => ?_⟩
  rw [hbits i hi, zero_add, codeBit_eq_place (by omega)]

/-- A buffer without bytes has no hunks, but cannot be encoded in one call. -/
theorem hammingEncodeBlock_nil : encodeHunks [] 0 0 = some 0 ∧ hammingEncodeBlock [] = none :=
  ⟨rfl, rfl⟩

theorem hamming_hunks_two : encodeHunks [[1], [2]] 0 0 = some (hammingParity [1, 2]) :=
  (hamming_hunks [[1], [2]] 3 (by decide) (by decide) (by decide)).1

end Ocfs2Tools.BlockCheck
