import Ocfs2Tools.Swap.Model

/-!
# Round trips of lists, blocks and directory entries

What is decided while records are swapped is read from fields that lie before them. So both
directions of a list swap the same fields, and they undo each other on every content.
-/

namespace Ocfs2Tools.Swap

open List

variable {m' : Mem}

theorem swapFields_involutive {fs : List Field} (h : fs.Pairwise Field.Apart) :
    Function.Involutive fun m => swapFields m fs :=
  fun m => swapFields_swapFields m h

/-! ### Extent lists -/

section ExtentList

variable (base limit el : Nat)

theorem extentRecLoop : RecordLoop (el + 16) 16 (fun m => beAt m (el + 4) 2)
    (fun m i => extentRecFields (beAt m el 2) (el + 16 + 16 * i)) where
  inside := by
    intro m i f hf
    have hw : (if beAt m el 2 ≠ 0 then 4 else 2) ≤ 4 := by split <;> decide
    simp only [extentRecFields, mem_cons, not_mem_nil, or_false] at hf
    rcases hf with rfl | rfl | rfl <;> dsimp only <;> omega
  apart := by
    intro m i
    by_cases hdepth : beAt m el 2 = 0 <;>
      simp [extentRecFields, Field.Apart, hdepth]
  count_eq h := h.beAt (by omega)
  fields_eq h := by simp only [h.beAt (show el + 2 ≤ el + 16 by omega)]

theorem primaryFields_apart : (primaryFields el).Pairwise Field.Apart := by
  simp [primaryFields, Field.Apart]

theorem extentList_fromCpu_toCpu : Function.LeftInverse (swapExtentListFromCpu base limit el)
    (swapExtentListToCpu base limit el) :=
  ((extentRecLoop el).involutive maxTurns).leftInverse.comp
    (swapFields_involutive (primaryFields_apart el)).leftInverse

theorem extentList_toCpu_fromCpu : Function.LeftInverse (swapExtentListToCpu base limit el)
    (swapExtentListFromCpu base limit el) :=
  (swapFields_involutive (primaryFields_apart el)).leftInverse.comp
    ((extentRecLoop el).involutive maxTurns).leftInverse

/-- The fields of an extent list that are swapped; `m` is the list as it is on disk. -/
def listFields (m : Mem) : List Field :=
  primaryFields el ++ arrayFields (fun i => swapBarrier base limit (el + 16 + 16 * i) 16)
    (leAt m (el + 4) 2) (fun i => extentRecFields (leAt m el 2) (el + 16 + 16 * i)) maxTurns 0

theorem primaryFields_bound : ∀ f ∈ primaryFields el, el ≤ f.off ∧ f.off + f.width ≤ el + 6 := by
  intro f hf
  simp only [primaryFields, mem_cons, not_mem_nil, or_false] at hf
  rcases hf with rfl | rfl | rfl <;> dsimp only <;> omega

theorem beAt_primary (m : Mem) : beAt (swapExtentListPrimary el m) el 2 = leAt m el 2 ∧
    beAt (swapExtentListPrimary el m) (el + 4) 2 = leAt m (el + 4) 2 :=
  ⟨beAt_swapFields_mem (primaryFields_apart el) (by simp [primaryFields]),
    beAt_swapFields_mem (primaryFields_apart el) (by simp [primaryFields])⟩

theorem listFields_eq (m : Mem) : listFields base limit el m = primaryFields el ++
    arrayFields (fun i => swapBarrier base limit (el + 16 + 16 * i) 16)
      (beAt (swapExtentListPrimary el m) (el + 4) 2)
      (fun i => extentRecFields (beAt (swapExtentListPrimary el m) el 2) (el + 16 + 16 * i))
      maxTurns 0 := by
  rw [(beAt_primary el m).1, (beAt_primary el m).2, listFields]

theorem swapExtentListToCpu_eq (m : Mem) : swapExtentListToCpu base limit el m =
    swapFields m (listFields base limit el m) := by
  rw [listFields_eq, swapFields_append, swapExtentListToCpu, swapExtentListSecondary,
    (extentRecLoop el).swapArray_eq (swapExtentListPrimary el m) _ _ _ fun _ _ => rfl,
    swapExtentListPrimary]

theorem listFields_ge (m : Mem) : ∀ f ∈ listFields base limit el m, el ≤ f.off := by
  intro f hf
  rw [listFields_eq] at hf
  rcases mem_append.mp hf with hf | hf
  · exact (primaryFields_bound el f hf).1
  · have := (extentRecLoop el).fields_ge _ _ maxTurns 0 f hf
    omega

variable {el}

theorem listFields_congr {m : Mem} (hdepth : leAt m' el 2 = leAt m el 2)
    (hnext : leAt m' (el + 4) 2 = leAt m (el + 4) 2) :
    listFields base limit el m' = listFields base limit el m := by
  rw [listFields, hdepth, hnext, listFields]

variable {m : Mem} {gs : List Field}

theorem listFields_swapFields (h : ∀ g ∈ gs, ∀ f ∈ primaryFields el, g.Apart f) :
    listFields base limit el (swapFields m gs) = listFields base limit el m :=
  listFields_congr base limit (leAt_swapFields fun g hg => h g hg _ (by simp [primaryFields]))
    (leAt_swapFields fun g hg => h g hg _ (by simp [primaryFields]))

theorem mem_listFields_of_primary {f : Field} (hf : f ∈ primaryFields el) :
    f ∈ listFields base limit el m :=
  mem_append_left _ hf

theorem swapExtentListToCpu_comm (h : ∀ g ∈ gs, ∀ f ∈ listFields base limit el m, g.Apart f) :
    swapExtentListToCpu base limit el (swapFields m gs) =
      swapFields (swapExtentListToCpu base limit el m) gs := by
  rw [swapExtentListToCpu_eq, swapExtentListToCpu_eq,
    listFields_swapFields base limit fun g hg f hf =>
      h g hg f (mem_listFields_of_primary base limit hf),
    swapFields_comm m h]

theorem swapExtentListToCpu_agreeBelow (m : Mem) :
    AgreeBelow el m (swapExtentListToCpu base limit el m) := by
  rw [swapExtentListToCpu_eq]
  exact swapFields_agreeBelow m (listFields_ge base limit el m)

theorem swapExtentListFromCpu_agreeBelow (m : Mem) :
    AgreeBelow el m (swapExtentListFromCpu base limit el m) := by
  intro x hx
  -- the other direction gives `m` back and leaves this part alone
  have := swapExtentListToCpu_agreeBelow base limit (swapExtentListFromCpu base limit el m) x hx
  rw [extentList_toCpu_fromCpu] at this
  exact this.symm

end ExtentList

theorem extentBlock_fromCpu_toCpu (base size : Nat) :
    Function.LeftInverse (swapExtentBlockFromCpu base size) (swapExtentBlockToCpu base size) := by
  intro m
  have hbound : ∀ f ∈ extentBlockHeader, f.off + f.width ≤ 0x30 := by decide
  have happ : ∀ g ∈ extentBlockHeader, ∀ f ∈ listFields base size 0x30 m, g.Apart f :=
    fun g hg f hf => .inl (le_trans (hbound g hg) (listFields_ge base size 0x30 m f hf))
  rw [swapExtentBlockFromCpu, swapExtentBlockToCpu, swapExtentListToCpu_comm base size happ,
    swapFields_swapFields _ (by decide),
    extentList_fromCpu_toCpu]

/-! ### Refcount blocks -/

theorem refcountRecLoop (rl : Nat) : RecordLoop (rl + 16) 16 (fun m => beAt m rl 2)
    (fun _ i => refcountRecFields (rl + 16 + 16 * i)) where
  inside := by
    intro m i f hf
    simp only [refcountRecFields, mem_cons, not_mem_nil, or_false] at hf
    rcases hf with rfl | rfl | rfl <;> dsimp only <;> omega
  apart := by
    simp [refcountRecFields, Field.Apart]
  count_eq h := h.beAt (by omega)
  fields_eq _ := rfl

theorem refcountList_fromCpu_toCpu (base limit rl : Nat) :
    Function.LeftInverse (swapRefcountListFromCpu base limit rl)
      (swapRefcountListToCpu base limit rl) := by
  refine ((refcountRecLoop rl).involutive maxTurns).leftInverse.comp
    (swapFields_involutive ?_).leftInverse
  simp [Field.Apart]

theorem swapRefcountListToCpu_agreeBelow (base limit rl : Nat) (m : Mem) :
    AgreeBelow rl m (swapRefcountListToCpu base limit rl m) := by
  intro x hx
  rw [swapRefcountListToCpu, swapRefcountListSecondary,
    (refcountRecLoop rl).agreeBelow _ _ x (by omega)]
  exact swapFields_agreeBelow m (by simp) x hx

theorem refcountBody_fromCpu_toCpu (base size : Nat) :
    Function.LeftInverse (refcountBodyFromCpu base size) (refcountBodyToCpu base size) := by
  intro m
  unfold refcountBodyToCpu
  split
  · next htree =>
    have hkeep : isRefcountTree (swapExtentListToCpu base size 0x80 m) = isRefcountTree m := by
      rw [isRefcountTree, (swapExtentListToCpu_agreeBelow base size m).beAt (by decide),
        isRefcountTree]
    rw [refcountBodyFromCpu, hkeep, if_pos htree, extentList_fromCpu_toCpu]
  · next htree =>
    have hkeep : isRefcountTree (swapRefcountListToCpu base size 0x80 m) = isRefcountTree m := by
      rw [isRefcountTree, (swapRefcountListToCpu_agreeBelow base size 0x80 m).beAt (by decide),
        isRefcountTree]
    rw [refcountBodyFromCpu, hkeep, if_neg htree, refcountList_fromCpu_toCpu]

theorem refcountBlock_fromCpu_toCpu (base size : Nat) :
    Function.LeftInverse (swapRefcountBlockFromCpu base size) (swapRefcountBlockToCpu base size) :=
  (refcountBody_fromCpu_toCpu base size).comp
    (swapFields_involutive (by decide)).leftInverse

/-! ### Directory entries -/

theorem direntFields_apart (p : Nat) : (direntFields p).Pairwise Field.Apart := by
  simp [direntFields, Field.Apart]

theorem direntFields_bound (p : Nat) : ∀ f ∈ direntFields p, p ≤ f.off ∧
    f.off + f.width ≤ p + 10 := by
  intro f hf
  simp only [direntFields, mem_cons, not_mem_nil, or_false] at hf
  rcases hf with rfl | rfl <;> dsimp only <;> omega

theorem beAt_swapDirent (m : Mem) (p : Nat) :
    beAt (swapFields m (direntFields p)) (p + 8) 2 = leAt m (p + 8) 2 :=
  beAt_swapFields_mem (direntFields_apart p) (by simp [direntFields])

theorem le_direntStep (recLen : Nat) : 12 ≤ direntStep recLen := by
  unfold direntStep
  split
  · exact le_refl 12
  · next h =>
    simp only [badRecLen, Bool.or_eq_true, decide_eq_true_eq, not_or, not_lt] at h
    exact h.1

section Dirents

variable {d : Bool} {stop n p : Nat} {m : Mem} {gs : List Field}

theorem swapDirEntriesDirection_stop (hp : ¬ p + 12 < stop) :
    ∀ n, swapDirEntriesDirection d stop n p m = (false, m)
  | 0 => rfl
  | _ + 1 => if_neg hp

theorem swapDirEntriesDirection_succ (hp : p + 12 < stop) :
    swapDirEntriesDirection d stop (n + 1) p m = (badDirent (cpuRecLen d m p) (m (p + 10)).toNat ||
          (swapDirEntriesDirection d stop n (p + direntStep (cpuRecLen d m p))
            (swapFields m (direntFields p))).1,
        (swapDirEntriesDirection d stop n (p + direntStep (cpuRecLen d m p))
          (swapFields m (direntFields p))).2) :=
  if_pos hp

theorem cpuRecLen_swapFields (h : ∀ g ∈ gs, g.Apart ⟨p, 12⟩) :
    cpuRecLen d (swapFields m gs) p = cpuRecLen d m p := by
  have hfield : ∀ g ∈ gs, g.Apart ⟨p + 8, 2⟩ := fun g hg => (h g hg).sub (by omega) (by omega)
  cases d with
  | true =>
    rw [cpuRecLen, if_pos rfl, beAt_swapDirent, leAt_swapFields hfield, cpuRecLen, if_pos rfl,
      beAt_swapDirent]
  | false => exact beAt_swapFields hfield

theorem swapDirEntriesDirection_comm : ∀ n p (m : Mem),
    (∀ g ∈ gs, g.off + g.width ≤ p ∨ stop ≤ g.off) →
    swapDirEntriesDirection d stop n p (swapFields m gs) =
      ((swapDirEntriesDirection d stop n p m).1,
        swapFields (swapDirEntriesDirection d stop n p m).2 gs)
  | 0, _, _, _ => rfl
  | n + 1, p, m, hgs => by
    by_cases hp : p + 12 < stop
    · have hentry : ∀ g ∈ gs, g.Apart ⟨p, 12⟩ := by
        intro g hg
        have := hgs g hg
        unfold Field.Apart
        dsimp only
        omega
      have hname : swapFields m gs (p + 10) = m (p + 10) :=
        swapFields_outside fun g hg => (hentry g hg).not_holds ⟨by simp, by simp⟩
      have hcomm : swapFields (swapFields m gs) (direntFields p) =
          swapFields (swapFields m (direntFields p)) gs := by
        apply swapFields_comm
        intro g hg f hf
        obtain ⟨h1, h2⟩ := direntFields_bound p f hf
        exact (hentry g hg).sub h1 (by omega)
      rw [swapDirEntriesDirection_succ hp, swapDirEntriesDirection_succ hp,
        cpuRecLen_swapFields hentry, hname, hcomm,
        swapDirEntriesDirection_comm n _ _ fun g hg => (hgs g hg).imp_left (by omega)]
    · rw [swapDirEntriesDirection_stop hp, swapDirEntriesDirection_stop hp]

theorem cpuRecLen_swapped (d : Bool) (m : Mem) (p : Nat) :
    cpuRecLen (!d) (swapFields m (direntFields p)) p = cpuRecLen d m p := by
  cases d with
  | true => rfl
  | false =>
    rw [cpuRecLen, swapFields_swapFields m (direntFields_apart p)]
    rfl

theorem cpuRecLen_agreeBelow (h : AgreeBelow (p + 12) m m') :
    cpuRecLen d m' p = cpuRecLen d m p := by
  cases d with
  | true =>
    rw [cpuRecLen, if_pos rfl, beAt_swapDirent, h.leAt (by omega), cpuRecLen, if_pos rfl,
      beAt_swapDirent]
  | false => exact h.beAt (by omega)

theorem swapDirEntriesDirection_agreeBelow : ∀ n p (m : Mem),
    AgreeBelow p m (swapDirEntriesDirection d stop n p m).2
  | 0, _, _, _, _ => rfl
  | n + 1, p, m, x, hx => by
    by_cases hp : p + 12 < stop
    · rw [swapDirEntriesDirection_succ hp]
      rw [swapDirEntriesDirection_agreeBelow n _ _ x (by omega)]
      exact swapFields_agreeBelow m (fun f hf => (direntFields_bound p f hf).1) x hx
    · rw [swapDirEntriesDirection_stop hp]

theorem swapDirEntriesDirection_undo (d : Bool) : ∀ n p m,
    swapDirEntriesDirection (!d) stop n p (swapDirEntriesDirection d stop n p m).2 =
      ((swapDirEntriesDirection d stop n p m).1, m)
  | 0, _, _ => rfl
  | n + 1, p, m => by
    by_cases hp : p + 12 < stop
    · -- the walk behind this entry commutes with the swap of the entry
      have hq := le_direntStep (cpuRecLen d m p)
      have hbehind : ∀ g ∈ direntFields p, g.off + g.width ≤ p + direntStep (cpuRecLen d m p) ∨
          stop ≤ g.off := by
        intro g hg
        have := (direntFields_bound p g hg).2
        omega
      rw [swapDirEntriesDirection_succ (d := d) hp, swapDirEntriesDirection_comm n _ m hbehind]
      generalize hrest : swapDirEntriesDirection d stop n (p + direntStep (cpuRecLen d m p)) m = r
      have hkeep : AgreeBelow (p + 12) m r.2 := by
        intro x hx
        rw [← hrest]
        exact swapDirEntriesDirection_agreeBelow n _ m x (by omega)
      have hname : swapFields r.2 (direntFields p) (p + 10) = m (p + 10) := by
        rw [← hkeep (p + 10) (by omega)]
        refine swapFields_outside fun f hf hin => ?_
        have h1 := (direntFields_bound p f hf).2
        have h2 := hin.2
        omega
      dsimp only
      rw [swapDirEntriesDirection_succ hp, cpuRecLen_swapped, cpuRecLen_agreeBelow hkeep, hname,
        swapFields_swapFields _ (direntFields_apart p), ← hrest,
        swapDirEntriesDirection_undo d n _ m]
    · rw [swapDirEntriesDirection_stop hp, swapDirEntriesDirection_stop hp]

end Dirents

theorem dirEntries_fromCpu_toCpu (buf bytes : Nat) (m : Mem) :
    swapDirEntriesFromCpu buf bytes (swapDirEntriesToCpu buf bytes m).2 =
      ((swapDirEntriesToCpu buf bytes m).1, m) :=
  swapDirEntriesDirection_undo true bytes buf m

theorem dirBlock_fromCpu_toCpu (size : Nat) (trailer : Bool) :
    Function.LeftInverse (swapDirBlockFromCpu size trailer) (swapDirBlockToCpu size trailer) := by
  intro m
  cases trailer with
  | false => exact congrArg Prod.snd (dirEntries_fromCpu_toCpu 0 size m)
  | true =>
    have hundo := dirEntries_fromCpu_toCpu 0 (size - Dir.dirTrailerSize) m
    simp only [swapDirBlockToCpu, if_true]
    cases hbad : (swapDirEntriesToCpu 0 (size - Dir.dirTrailerSize) m).1 with
    | true =>
      rw [hbad] at hundo
      simp only [swapDirBlockFromCpu, if_true, hundo]
    | false =>
      rw [hbad] at hundo
      have hcomm : swapDirEntriesFromCpu 0 (size - Dir.dirTrailerSize)
          (swapFields (swapDirEntriesToCpu 0 (size - Dir.dirTrailerSize) m).2
            (dirTrailerFields (size - Dir.dirTrailerSize))) =
          (false, swapFields m (dirTrailerFields (size - Dir.dirTrailerSize))) := by
        rw [swapDirEntriesFromCpu, swapDirEntriesDirection_comm, ← swapDirEntriesFromCpu, hundo]
        intro g hg
        simp only [dirTrailerFields, mem_cons, not_mem_nil, or_false] at hg
        rcases hg with rfl | rfl | rfl | rfl | rfl | rfl <;> simp
      simp only [swapDirBlockFromCpu, if_true, Bool.false_eq_true, if_false, hcomm]
      apply swapFields_swapFields
      simp [dirTrailerFields, Field.Apart]

end Ocfs2Tools.Swap
