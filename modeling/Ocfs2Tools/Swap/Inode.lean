import Ocfs2Tools.Swap.Blocks

/-!
# Round trips of inodes without their inline xattrs

`ocfs2_swap_inode_from_cpu` takes the stages of `ocfs2_swap_inode_to_cpu` in the opposite
order. What a stage decides on is in the fixed fields of the inode or in the header of what
it swaps, which it leaves alone.
-/

namespace Ocfs2Tools.Swap

open List

variable {base size : Nat} {m m' : Mem}

/-- Where the fields end that the stages decide on. -/
def infoEnd : Nat := 0x78

theorem inodeInfo_agreeBelow (h : AgreeBelow infoEnd m m') : inodeInfo m' = inodeInfo m := by
  unfold inodeInfo
  rw [h.beAt (by decide), h.beAt (by decide), h.beAt (by decide), h.beAt (by decide),
    h.beAt (by decide), h.beAt (by decide)]

/-! ### The fixed part -/

theorem id1Fields_spec (d : InodeInfo) : (id1Fields d).Pairwise Field.Apart ∧
    ∀ f ∈ id1Fields d, 0xb8 ≤ f.off ∧ f.off + f.width ≤ id2 := by
  unfold id1Fields
  split
  · decide
  · split
    · decide
    · split <;> decide

theorem id2Fields_spec (d : InodeInfo) : (id2Fields d).Pairwise Field.Apart ∧
    ∀ f ∈ id2Fields d, id2 ≤ f.off ∨ 0x88 ≤ f.off ∧ f.off + f.width ≤ 0xb8 := by
  unfold id2Fields
  repeat' split
  all_goals decide

theorem inodeFields_apart (d : InodeInfo) : (id1Fields d ++ id2Fields d).Pairwise Field.Apart := by
  refine pairwise_append.mpr ⟨(id1Fields_spec d).1, (id2Fields_spec d).1, ?_⟩
  intro f hf g hg
  have h1 := (id1Fields_spec d).2 f hf
  have h2 := (id2Fields_spec d).2 g hg
  unfold Field.Apart
  omega

theorem swapInodeSecond_agreeBelow (m : Mem) : AgreeBelow infoEnd m (swapInodeSecond m) := by
  apply swapFields_agreeBelow
  intro f hf
  rcases mem_append.mp hf with hf | hf
  · exact le_trans (by decide) ((id1Fields_spec _).2 f hf).1
  · have := (id2Fields_spec _).2 f hf
    unfold infoEnd
    unfold id2 at this
    omega

theorem swapInodeSecond_involutive : Function.Involutive swapInodeSecond := by
  intro m
  have hinfo := inodeInfo_agreeBelow (swapInodeSecond_agreeBelow m)
  rw [swapInodeSecond, hinfo, swapInodeSecond, swapFields_swapFields m (inodeFields_apart _)]

/-! ### The records -/

theorem chainRecLoop : RecordLoop (id2 + 16) 16 (fun m => beAt m (id2 + 6) 2)
    (fun _ i => chainRecFields (id2 + 16 + 16 * i)) where
  inside := by
    intro m i f hf
    simp only [chainRecFields, mem_cons, not_mem_nil, or_false] at hf
    rcases hf with rfl | rfl | rfl <;> dsimp only <;> omega
  apart := by
    simp [chainRecFields, Field.Apart]
  count_eq h := h.beAt (by omega)
  fields_eq _ := rfl

theorem truncateRecLoop : RecordLoop (id2 + 8) 8 (fun m => beAt m id2 2)
    (fun _ i => truncateRecFields (id2 + 8 + 8 * i)) where
  inside := by
    intro m i f hf
    simp only [truncateRecFields, mem_cons, not_mem_nil, or_false] at hf
    rcases hf with rfl | rfl <;> dsimp only <;> omega
  apart := by
    simp [truncateRecFields, Field.Apart]
  count_eq h := h.beAt (by omega)
  fields_eq _ := rfl

theorem swapInodeThird_agreeBelow (base size : Nat) (m : Mem) :
    AgreeBelow infoEnd m (swapInodeThird base size m) := by
  unfold swapInodeThird
  split
  · exact (chainRecLoop.agreeBelow _ m).mono (by decide)
  · split
    · exact (truncateRecLoop.agreeBelow _ m).mono (by decide)
    · exact fun _ _ => rfl

theorem swapInodeThird_involutive (base size : Nat) :
    Function.Involutive (swapInodeThird base size) := by
  intro m
  have hinfo := inodeInfo_agreeBelow (swapInodeThird_agreeBelow base size m)
  rw [swapInodeThird, hinfo]
  unfold swapInodeThird
  split
  · exact chainRecLoop.involutive _ m
  · split
    · exact truncateRecLoop.involutive _ m
    · rfl

/-! ### Inline directories -/

theorem swapInlineDir_agreeBelow (d : Bool) (size : Nat) (m : Mem) :
    AgreeBelow Dir.idDataOffset m (swapInlineDir d size m) := by
  unfold swapInlineDir
  split
  · exact swapDirEntriesDirection_agreeBelow _ _ m
  · exact fun _ _ => rfl

theorem swapInlineDir_undo (d : Bool) (size : Nat) :
    Function.LeftInverse (swapInlineDir (!d) size) (swapInlineDir d size) := by
  intro m
  have hkeep := swapInlineDir_agreeBelow d size m
  have hinfo := inodeInfo_agreeBelow (hkeep.mono (by decide))
  have hbytes : inlineBytes size (swapInlineDir d size m) = inlineBytes size m := by
    rw [inlineBytes, hinfo, hkeep.beAt (by decide), inlineBytes]
  rw [swapInlineDir, hinfo, hbytes]
  unfold swapInlineDir
  split
  · rw [swapDirEntriesDirection_undo]
  · rfl

/-! ### Extent lists -/

theorem inodeExtents_fromCpu_toCpu (base size : Nat) :
    Function.LeftInverse (inodeExtentsFromCpu base size) (inodeExtentsToCpu base size) := by
  refine leftInverse_ite (fun m => ?_) (extentList_fromCpu_toCpu base size id2)
  rw [inodeInfo_agreeBelow ((swapExtentListToCpu_agreeBelow base size m).mono (by decide))]

theorem inodeExtents_toCpu_fromCpu (base size : Nat) :
    Function.LeftInverse (inodeExtentsToCpu base size) (inodeExtentsFromCpu base size) := by
  refine leftInverse_ite (fun m => ?_) (extentList_toCpu_fromCpu base size id2)
  rw [inodeInfo_agreeBelow ((swapExtentListFromCpu_agreeBelow base size m).mono (by decide))]

/-! ### The stages together -/

theorem inodeFirst_involutive : Function.Involutive fun m => swapFields m inodeFirstFields :=
  swapFields_involutive (by decide)

theorem inodeBody_fromCpu_toCpu (base size : Nat) :
    Function.LeftInverse (inodeBodyFromCpu base size) (inodeBodyToCpu base size) :=
  (inodeExtents_fromCpu_toCpu base size).comp <| (swapInlineDir_undo true size).comp <|
    (swapInodeThird_involutive base size).leftInverse.comp <|
      swapInodeSecond_involutive.leftInverse.comp inodeFirst_involutive.leftInverse

theorem inodeBody_toCpu_fromCpu (base size : Nat) :
    Function.LeftInverse (inodeBodyToCpu base size) (inodeBodyFromCpu base size) :=
  inodeFirst_involutive.leftInverse.comp <| swapInodeSecond_involutive.leftInverse.comp <|
    (swapInodeThird_involutive base size).leftInverse.comp <|
      (swapInlineDir_undo false size).comp (inodeExtents_toCpu_fromCpu base size)

end Ocfs2Tools.Swap
