import Ocfs2Tools.ChainAlloc.Steps

/-!
# Ranges of bits

`alloc_range_func` searches a region for a run of clear bits and sets them,
`ocfs2_bitmap_clear_range_generic` clears the bits of a range in one region.
-/

namespace Ocfs2Tools

open Prog Function

namespace ChainAlloc

open Bitops

variable {minLen len : Nat}

/-- The bits from `lo` on, `count` of them, have the value `v`. -/
def fillRange (A : Nat → Bool) (lo count : Nat) (v : Bool) : Nat → Bool :=
  fun b => if lo ≤ b ∧ b < lo + count then v else A b

theorem fillRange_zero (A : Nat → Bool) (lo : Nat) (v : Bool) : fillRange A lo 0 v = A := by
  funext b
  exact if_neg (by omega)

theorem fillRange_succ (A : Nat → Bool) (lo count : Nat) (v : Bool) :
    fillRange (update A lo v) (lo + 1) count v = fillRange A lo (count + 1) v := by
  funext b
  unfold fillRange
  by_cases hlo : b = lo
  · subst hlo
    rw [if_neg (by omega), if_pos (by omega), update_self]
  · rw [update_of_ne hlo]
    split
    · rw [if_pos (by omega)]
    · rw [if_neg (by omega)]

/-! ### The search -/

/-- Behind the region the last byte of its buffer has no bit set. -/
def TailClear (bm : List UInt8) (totalBits : Nat) : Prop :=
  ∀ x, totalBits ≤ x → x < 8 * bm.length → testBit x bm = false

section Search

variable {bm : List UInt8} {totalBits : Nat} (hlen : totalBits ≤ 8 * bm.length)
  (htail : TailClear bm totalBits)

include hlen htail

variable {start : Nat}

theorem findNextBitClear_isNext (hstart : start < totalBits) :
    IsNext (!testBit · bm) totalBits start (findNextBitClear bm totalBits start) := by
  refine (findNextBitClear_isNext_iff hlen (le_of_lt hstart)).mpr ?_
  -- all bits before the result are set, the one behind the region among them
  rintro ⟨-, k, hk, hbyte, -, hbefore⟩
  have hset : (!testBit totalBits bm) = false := hbefore totalBits (le_of_lt hstart) hk
  rw [htail totalBits (le_refl _) (by omega)] at hset
  cases hset

theorem findNextBitSet_isNext (hstart : start < totalBits) :
    IsNext (testBit · bm) totalBits start (findNextBitSet bm totalBits start) := by
  refine (findNextBitSet_isNext_iff bm (le_of_lt hstart)).mpr ?_
  rintro ⟨-, k, hk, hbyte, hset, -⟩
  exact Bool.false_ne_true ((htail k (le_of_lt hk) (by omega)).symm.trans hset)

end Search

end ChainAlloc

namespace Bitmap

open Bitops ChainAlloc

variable {bm : List UInt8} {total min len lo : Nat}

/-- What the search in a buffer may answer. -/
def Found (bm : List UInt8) (total min len lo : Nat) : Option (Nat × Nat) → Prop
  | some (a, z) => lo ≤ a ∧ z ≤ total ∧ a + min ≤ z ∧ z ≤ a + len ∧ Clear bm a z ∧
      (z = a + len ∨ ∀ a' z', lo ≤ a' → z' ≤ total → Clear bm a' z' → z' - a' ≤ z - a)
  | none => ∀ a z, lo ≤ a → z ≤ total → Clear bm a z → z - a < min

theorem searchRun_found (hlen : total ≤ 8 * bm.length) (htail : TailClear bm total) (hmin : 0 < min)
    (hml : min ≤ len) (hsmall : total + min + 1 < 2 ^ 64) :
    ∀ fuel start best, lo ≤ start → start ≤ total + 1 → 1 ≤ fuel → total + 1 ≤ fuel + start →
      (∀ b ∈ best, lo ≤ b.1 ∧ b.1 + b.2 ≤ total ∧ b.2 < len ∧ Clear bm b.1 (b.1 + b.2)) →
      (∀ a z, lo ≤ a → z ≤ total → Clear bm a z → a < z →
        z - a ≤ (best.map Prod.snd).getD 0 ∨ start ≤ a) →
      Found bm total min len lo (searchRun bm total min len fuel start best) := by
  intro fuel
  induction fuel with
  | zero => intro start best _ _ h; cases h
  | succ fuel ih =>
    intro start best hlo hstart _ hfuel hbest hmax
    -- nothing long enough is left behind `start`
    have hfallback : (∀ a z, start ≤ a → z ≤ total → Clear bm a z → z - a < min) →
        Found bm total min len lo
          (best.bind fun b => if b.2 < min then none else some (b.1, b.1 + b.2)) := by
      intro hrest
      have hall : ∀ a z, lo ≤ a → z ≤ total → Clear bm a z →
          z - a ≤ (best.map Prod.snd).getD 0 ∨ z - a < min := by
        intro a z h1 h2 h3
        by_cases hlt : a < z
        · exact (hmax a z h1 h2 h3 hlt).imp_right fun h => hrest a z h h2 h3
        · omega
      cases best with
      | none => exact fun a z h1 h2 h3 => (hall a z h1 h2 h3).elim (fun h => by simp at h; omega) id
      | some b =>
        obtain ⟨h1, h2, h3, h4⟩ := hbest b rfl
        simp only [Option.map_some, Option.getD_some, Option.bind_some] at hall ⊢
        split
        · exact fun a z h1 h2 h3 => (hall a z h1 h2 h3).elim (fun h => by omega) id
        · refine ⟨h1, h2, by omega, by omega, h4, .inr fun a z h1 h2 h3 => ?_⟩
          have := hall a z h1 h2 h3
          omega
    rw [searchRun]
    dsimp only
    split
    · next hgo =>
      have hlt : start < total := by omega
      have hnext := findNextBitClear_isNext hlen htail hlt
      have hge := hnext.ge (le_of_lt hlt)
      have hle := hnext.le
      generalize findNextBitClear bm total start = c at hnext hge hle ⊢
      -- the bits before `c` are set
      have hskip : ∀ a z, start ≤ a → z ≤ total → Clear bm a z → a < z → c ≤ a := by
        intro a z h1 h2 h3 h4
        by_contra hac
        have hset : (!testBit a bm) = false := hnext.before a h1 (not_le.mp hac)
        rw [h3 a (le_refl _) h4] at hset
        cases hset
      split
      · next heq =>
        refine hfallback fun a z h1 h2 h3 => ?_
        by_contra hlong
        have := hskip a z h1 h2 h3 (by omega)
        omega
      · next hne =>
        have hclt : c < total := by omega
        have hnext' := findNextBitSet_isNext hlen htail hclt
        have hce := hnext'.ge (le_of_lt hclt)
        have het := hnext'.le
        generalize findNextBitSet bm total c = e at hnext' hce het ⊢
        have hclear : Clear bm c e := hnext'.before
        rw [show runLength c e = e - c from if_pos hce]
        split
        · next hfound =>
          exact ⟨by omega, by omega, by omega, le_refl _,
            fun k h1 h2 => hclear k h1 (by omega), .inl rfl⟩
        · next hshort =>
          refine ih _ _ (by omega) (by omega) (by omega) (by omega) ?_ ?_
          · intro b hb
            split at hb
            · cases hb
              exact ⟨by omega, by omega, by omega, fun k h1 h2 => hclear k h1 (by omega)⟩
            · exact hbest b hb
          · intro a z h1 h2 h3 h4
            have hbig : (best.map Prod.snd).getD 0 ≤ ((if (best.map Prod.snd).getD 0 < e - c then
                some (c, e - c) else best).map Prod.snd).getD 0 ∧ e - c ≤ ((if (best.map
                Prod.snd).getD 0 < e - c then some (c, e - c) else best).map Prod.snd).getD 0 := by
              split
              · simp only [Option.map_some, Option.getD_some]
                omega
              · omega
            rcases hmax a z h1 h2 h3 h4 with h | h
            · omega
            · have hca := hskip a z h h2 h3 h4
              -- the run stops at `e`, or starts behind it
              have hstop : e < total → a ≤ e → z ≤ e := by
                intro he hae
                by_contra hze
                exact Bool.false_ne_true ((h3 e hae (by omega)).symm.trans (hnext'.found he).2)
              omega
    · next hgo =>
      exact hfallback fun a z h1 h2 h3 => by omega

end Bitmap

namespace ChainAlloc

open Bitops

variable {minLen len : Nat}

section Steps

variable {env : Env} {m n : Nat} {gd : Nat → GroupDesc} (lay : Layout env m n gd)
include lay

variable {i : Nat} {s : St} {A : Nat → Bool}

/-! ### Setting and clearing the bits -/

theorem setRun_run (hi : i < m) (count j) {s A} (inv : Inv env m n gd s A)
    (hle : j + count ≤ (env.region i).brValidBits) :
    ∃ s', setRun env i count ((env.region i).brBitmapStart + j) s = some (.ok (), s') ∧ Inv env m n
      gd s' (fillRange A ((env.region i).brStartBit + j) count true) := by
  induction count generalizing j s A with
  | zero => exact ⟨s, rfl, by rwa [fillRange_zero]⟩
  | succ count ih =>
    have hj : j < (env.region i).brValidBits := by omega
    obtain ⟨s₁, hrun, hinv⟩ := changeGenericShared_run lay inv true hi hj
    obtain ⟨s', hrest, hinv'⟩ := ih (j + 1) hinv (by omega)
    refine ⟨s', ?_, ?_⟩
    · rw [setRun, show (env.region i).brStartBit + ((env.region i).brBitmapStart + j) -
        (env.region i).brBitmapStart = (env.region i).brStartBit + j by omega, setGenericShared,
        bind_ok hrun]
      exact hrest
    · rwa [← add_assoc, fillRange_succ] at hinv'

theorem clearRun_run (hi : i < m) (count j) {s A} (inv : Inv env m n gd s A)
    (hle : j + count ≤ (env.region i).brValidBits) :
    ∃ s', clearRun env i count ((env.region i).brStartBit + j) s = some (.ok (), s') ∧ Inv env m n
      gd s' (fillRange A ((env.region i).brStartBit + j) count false) := by
  induction count generalizing j s A with
  | zero => exact ⟨s, rfl, by rwa [fillRange_zero]⟩
  | succ count ih =>
    have hj : j < (env.region i).brValidBits := by omega
    obtain ⟨s₁, hrun, hinv⟩ := changeGenericShared_run lay inv false hi hj
    obtain ⟨s', hrest, hinv'⟩ := ih (j + 1) hinv (by omega)
    refine ⟨s', ?_, ?_⟩
    · rw [clearRun, clearGenericShared, bind_ok hrun]
      exact hrest
    · rwa [← add_assoc, fillRange_succ] at hinv'

/-- The range, as far as it meets a region, lies within it. -/
def InOneRegion (env : Env) (m len startBit : Nat) : Prop :=
  ∀ i, i < m → (env.region i).brStartBit < startBit + len →
    startBit < (env.region i).brStartBit + (env.region i).brValidBits →
    (env.region i).brStartBit ≤ startBit ∧
      startBit + len ≤ (env.region i).brStartBit + (env.region i).brValidBits

theorem chainFreeRange_run (inv : Inv env m n gd s A) {startBit : Nat}
    (hfits : InOneRegion env m len startBit) :
    (∃ e, chainFreeRange env len startBit s = some (.error e, s)) ∨
      ∃ s', chainFreeRange env len startBit s = some (.ok (), s') ∧
        Inv env m n gd s' (fillRange A startBit len false) := by
  unfold chainFreeRange
  split
  · exact Or.inl ⟨_, rfl⟩
  cases hlook : (lookup env startBit len env.tree none).1 with
  | none => exact Or.inl ⟨_, rfl⟩
  | some i =>
    obtain ⟨hmem, hstart, hstop⟩ := lookup_some _ _ hlook
    have hi := (lay.mem_tree i).mp hmem
    obtain ⟨hlo, hhi⟩ := hfits i hi (by omega) hstop
    have hbelow := lay.below i hi
    have htotal := lay.total_lt
    obtain ⟨j, rfl⟩ := Nat.exists_eq_add_of_le hlo
    obtain ⟨s', hrun, hinv⟩ := clearRun_run lay hi len j inv (by omega)
    refine Or.inr ⟨s', ?_, hinv⟩
    rwa [Nat.mod_eq_of_lt (by omega), Nat.add_sub_cancel_left]

theorem allocRangeIn_run (hmin : 0 < minLen) (hminlen : minLen ≤ len) (hlen : len < env.bTotalBits)
    (inv : Inv env m n gd s A)
    (htails : ∀ i, i < m → TailClear (s.brBitmap i) (env.region i).brTotalBits) :
    ∀ is : List Nat, (∀ i ∈ is, i < m) → allocRangeIn env minLen len is s = some (.ok none, s) ∨
        ∃ firstBit bitsFound s', minLen ≤ bitsFound ∧
          allocRangeIn env minLen len is s = some (.ok (some (firstBit, bitsFound)), s') ∧
          Inv env m n gd s' (fillRange A firstBit bitsFound true) := by
  intro is
  induction is with
  | nil => intro _; exact Or.inl rfl
  | cons i rest ih =>
    intro hmem
    have hi := hmem i List.mem_cons_self
    have hnext := ih fun l hl => hmem l (List.mem_cons_of_mem _ hl)
    have hbelow := lay.below i hi
    have htotal := lay.total_lt
    have hstart : (env.region i).brBitmapStart ≤ 8 := brBitmapStart_le _
    have hbits : (env.region i).brTotalBits =
        (env.region i).brValidBits + (env.region i).brBitmapStart := rfl
    have hbytes : (s.brBitmap i).length = ((env.region i).brTotalBits + 7) / 8 := inv.length i hi
    rw [allocRangeIn, bind_ok (get_run s)]
    split
    · exact hnext
    · cases hsearch : searchRun (s.brBitmap i) (env.region i).brTotalBits minLen len
          ((env.region i).brTotalBits + 1) (env.region i).brBitmapStart none with
      | none => exact hnext
      | some run =>
        obtain ⟨a, z⟩ := run
        have hfound := Bitmap.searchRun_found (by omega) (htails i hi) hmin hminlen (by omega)
          ((env.region i).brTotalBits + 1) (env.region i).brBitmapStart none (le_refl _) (by omega)
          (by omega) (by omega) nofun fun _ _ h1 _ _ _ => .inr h1
        rw [hsearch] at hfound
        obtain ⟨hlo, hhi, hrun, -⟩ := hfound
        obtain ⟨j, rfl⟩ := Nat.exists_eq_add_of_le hlo
        obtain ⟨s', hset, hinv⟩ := setRun_run lay hi (z - ((env.region i).brBitmapStart + j)) j inv
          (by omega)
        refine Or.inr ⟨_, _, s', by omega, (bind_ok hset _).trans rfl, ?_⟩
        rwa [show (env.region i).brStartBit + ((env.region i).brBitmapStart + j) -
          (env.region i).brBitmapStart = (env.region i).brStartBit + j by omega]

theorem chainAllocRange_run (inv : Inv env m n gd s A) (minLen len : Nat)
    (htails : ∀ i, i < m → TailClear (s.brBitmap i) (env.region i).brTotalBits) :
    (∃ e, chainAllocRange env minLen len s = some (.error e, s)) ∨
      ∃ firstBit bitsFound s', chainAllocRange env minLen len s =
          some (.ok (firstBit, bitsFound), s') ∧
        Inv env m n gd s' (fillRange A firstBit bitsFound true) := by
  unfold chainAllocRange
  split
  · exact Or.inl ⟨_, rfl⟩
  · have hmin : 0 < minLen := by omega
    have hminlen : minLen ≤ len := by omega
    have hlen : len < env.bTotalBits := by omega
    rcases allocRangeIn_run lay hmin hminlen hlen inv htails env.tree.toList
        (fun i hi => (lay.mem_tree i).mp hi) with hnone |
          ⟨firstBit, bitsFound, s', hfound, hrun, hinv⟩
    · exact Or.inl ⟨_, (bind_ok hnone _).trans rfl⟩
    · refine Or.inr ⟨firstBit, bitsFound, s', ?_, hinv⟩
      rw [bind_ok hrun]
      exact bind_ok (check_ok (decide_eq_true hfound) s') _

end Steps

end ChainAlloc

end Ocfs2Tools
