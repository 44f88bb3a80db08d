import Ocfs2Tools.ChainAlloc.Invariant

/-!
# The calls keep the invariant

Each call returns with the invariant for the bits that are allocated after it. A range that
is freed has to lie within one region. A range is allocated within its region if no region
has a bit set behind its end in the last byte of its buffer, since the search for a bit does
not stop at the end of the region in the byte it starts in.
-/

namespace Ocfs2Tools.ChainAlloc

open List Prog Function Bitops

section Steps

variable {env : Env} {m n : Nat} {gd : Nat → GroupDesc} (lay : Layout env m n gd)
  {s : St} {A : Nat → Bool} {i bitno : Nat}

/-! ### Single bits -/

theorem Inv.same_bits (inv : Inv env m n gd s A) {bm : List UInt8}
    (hlen : bm.length = (s.brBitmap i).length)
    (hbits : ∀ j, j < (env.region i).brValidBits → testBit ((env.region i).brBitmapStart + j) bm =
        testBit ((env.region i).brBitmapStart + j) (s.brBitmap i)) :
    Inv env m n gd { s with brBitmap := update s.brBitmap i bm } A := by
  refine { inv with length := ?_, bits := ?_ }
  · intro l hl
    show List.length (update s.brBitmap i bm l) = _
    by_cases hli : l = i
    · subst hli
      rw [update_self, hlen]
      exact inv.length l hl
    · rw [update_of_ne hli]
      exact inv.length l hl
  · intro l hl j hj
    show testBit _ (update s.brBitmap i bm l) = _
    by_cases hli : l = i
    · subst hli
      rw [update_self, hbits j hj]
      exact inv.bits l hl j hj
    · rw [update_of_ne hli]
      exact inv.bits l hl j hj

include lay

theorem changeGenericShared_run (inv : Inv env m n gd s A) (v : Bool) {j : Nat} (hi : i < m)
    (hj : j < (env.region i).brValidBits) :
    ∃ s', changeGenericShared env v i ((env.region i).brStartBit + j) s =
        some (.ok (A ((env.region i).brStartBit + j)), s') ∧
      Inv env m n gd s' (update A ((env.region i).brStartBit + j) v) := by
  have hlen := inv.length i hi
  have hbytes : (env.region i).brBytes = ((env.region i).brTotalBits + 7) / 8 := rfl
  have htotal : (env.region i).brTotalBits =
      (env.region i).brValidBits + (env.region i).brBitmapStart := rfl
  have hindex : bitIndex (env.region i) ((env.region i).brStartBit + j) =
      (((env.region i).brBitmapStart + j : Nat)) := by
    unfold bitIndex
    omega
  have hin : (env.region i).brBitmapStart + j < 8 * (s.brBitmap i).length := by omega
  have hbm : ∀ x, testBit x (if v then setBit ((env.region i).brBitmapStart + j) (s.brBitmap i)
      else clearBit ((env.region i).brBitmapStart + j) (s.brBitmap i)) =
        if x = (env.region i).brBitmapStart + j then v else testBit x (s.brBitmap i) := by
    intro x
    cases v with
    | true =>
      rw [if_pos rfl, testBit_setBit hin]
      by_cases hx : x = (env.region i).brBitmapStart + j <;> simp [hx]
    | false =>
      rw [if_neg Bool.false_ne_true, testBit_clearBit hin]
      by_cases hx : x = (env.region i).brBitmapStart + j <;> simp [hx]
  have hbmlen : (if v then setBit ((env.region i).brBitmapStart + j) (s.brBitmap i)
      else clearBit ((env.region i).brBitmapStart + j) (s.brBitmap i)).length =
        (s.brBitmap i).length := by
    cases v with
    | true => exact length_setBit _ _
    | false => exact length_clearBit _ _
  have hold := inv.bits i hi j hj
  unfold changeGenericShared
  simp only [hindex, Int.toNat_natCast]
  rw [if_pos ⟨by omega, by omega⟩, hold]
  split
  · next hv =>
    refine ⟨_, rfl, ?_⟩
    have hsame : update A ((env.region i).brStartBit + j) v = A := by
      rw [← hv, update_eq_self]
    rw [hsame]
    refine inv.same_bits hbmlen fun x hx => ?_
    rw [hbm]
    split
    · rw [inv.bits i hi x hx, show x = j by omega, hv]
    · rfl
  · next hv =>
    exact ⟨_, rfl, inv.change lay hi hj (Bool.eq_not_of_ne hv) _ (hbmlen.trans hlen) hbm⟩

omit lay in
theorem lookup_some {totalBits : Nat} :
    ∀ (t : RTree) (l : Option Nat), (lookup env bitno totalBits t l).1 = some i →
      i ∈ t.toList ∧ (env.region i).brStartBit < (bitno + totalBits) % 2 ^ 64 ∧
        bitno < (env.region i).brStartBit + (env.region i).brValidBits := by
  intro t
  induction t with
  | leaf =>
    intro l h
    cases h
  | node left k right ihl ihr =>
    intro l h
    unfold lookup at h
    split at h
    · obtain ⟨hmem, hrest⟩ := ihl _ h
      exact ⟨mem_append_left _ hmem, hrest⟩
    · rename_i hleft
      split at h
      · obtain ⟨hmem, hrest⟩ := ihr _ h
        exact ⟨mem_append_right _ (mem_cons_of_mem _ hmem), hrest⟩
      · rename_i hright
        obtain rfl : k = i := Option.some.inj h
        exact ⟨mem_append_right _ mem_cons_self, not_le.mp hleft, not_le.mp hright⟩

theorem bitmapChange_run (inv : Inv env m n gd s A) (v : Bool) (bitno : Nat) :
    bitmapChange env v bitno s = some (.error .invalidBit, s) ∨
      ∃ i s', i < m ∧ (env.region i).brStartBit ≤ bitno ∧
        bitno < (env.region i).brStartBit + (env.region i).brValidBits ∧
        bitmapChange env v bitno s = some (.ok (A bitno), s') ∧
        Inv env m n gd s' (update A bitno v) := by
  unfold bitmapChange
  split
  · exact Or.inl rfl
  cases hi : (lookup env bitno 1 env.tree none).1 with
  | none => exact Or.inl rfl
  | some i =>
    obtain ⟨hmem, hstart, hstop⟩ := lookup_some _ _ hi
    have him := (lay.mem_tree i).mp hmem
    obtain ⟨j, rfl⟩ := Nat.exists_eq_add_of_le (by omega : (env.region i).brStartBit ≤ bitno)
    have hj : j < (env.region i).brValidBits := by omega
    obtain ⟨s', hrun, hinv⟩ := changeGenericShared_run lay inv v him hj
    exact Or.inr ⟨i, s', him, by omega, hstop, hrun, hinv⟩

omit lay in
theorem findNextClear_run (env : Env) (start : Nat) (s : St) :
    ∃ r, findNextClear env start s = some (r, s) := by
  unfold findNextClear
  split
  · exact ⟨_, rfl⟩
  · rw [bind_ok (get_run s)]
    generalize findClearIn env start s _ = found
    cases found with
    | none => exact ⟨_, rfl⟩
    | some bitno => exact ⟨_, rfl⟩

omit lay in
theorem findGd_isSome (hstart : (env.region i).brStartBit ≤ bitno)
    (hstop : bitno < (env.region i).brStartBit + (env.region i).brValidBits) {is : List Nat}
    (hmem : i ∈ is) : (findGd env s bitno is).isSome = true := by
  induction is with
  | nil => cases hmem
  | cons k rest ih =>
    rw [findGd]
    by_cases hk : (env.region k).brStartBit ≤ bitno ∧
        bitno < (env.region k).brStartBit + (env.region k).brValidBits
    · simp only [hk, and_self, if_true]
      rfl
    · simp only [hk, if_false]
      rcases mem_cons.mp hmem with rfl | hrest
      · exact absurd ⟨hstart, hstop⟩ hk
      · exact ih hrest

theorem chainAlloc_run (inv : Inv env m n gd s A) :
    (∃ e s', chainAlloc env s = some (.error e, s') ∧ Inv env m n gd s' A) ∨
      ∃ blkno bit bitno s', chainAlloc env s = some (.ok (blkno, bit, bitno), s') ∧
        A bitno = false ∧ Inv env m n gd s' (update A bitno true) := by
  unfold chainAlloc bitmapSet
  obtain ⟨r, hfind⟩ := findNextClear_run env 0 s
  cases r with
  | error e => exact Or.inl ⟨e, s, bind_error hfind _, inv⟩
  | ok bitno =>
    rw [bind_ok hfind]
    rcases bitmapChange_run lay inv true bitno with hfail | ⟨i, s', hi, hstart, hstop, hrun, hinv⟩
    · exact Or.inl ⟨_, s, bind_error hfail _, inv⟩
    · rw [bind_ok hrun]
      cases hA : A bitno with
      | true =>
        rw [← hA, update_eq_self] at hinv
        exact Or.inl ⟨_, s', rfl, hinv⟩
      | false =>
        -- the region that has the bit is one of the tree
        obtain ⟨⟨blkno, bit⟩, hgd⟩ := Option.isSome_iff_exists.mp
          (findGd_isSome hstart hstop ((lay.mem_tree i).mpr hi))
        refine Or.inr ⟨blkno, bit, bitno, s', ?_, hA, hinv⟩
        simp only [Bool.false_eq_true, if_false]
        rw [bind_ok (get_run s'), hgd]
        rfl

theorem chainFree_run (inv : Inv env m n gd s A) (bitno : Nat) :
    (∃ e s', chainFree env bitno s = some (.error e, s') ∧ Inv env m n gd s' A) ∨
      ∃ s', chainFree env bitno s = some (.ok (), s') ∧
        Inv env m n gd s' (update A bitno false) := by
  unfold chainFree bitmapClear
  rcases bitmapChange_run lay inv false bitno with hfail | ⟨i, s', _, _, _, hrun, hinv⟩
  · exact Or.inl ⟨_, s, bind_error hfail _, inv⟩
  · rw [bind_ok hrun]
    cases hA : A bitno with
    | true => exact Or.inr ⟨s', rfl, hinv⟩
    | false =>
      rw [← hA, update_eq_self] at hinv
      exact Or.inl ⟨_, s', rfl, hinv⟩

end Steps

end Ocfs2Tools.ChainAlloc
