import Ocfs2Tools.Swap.Inode
import Ocfs2Tools.Swap.Xattr

/-!
# Reading a block and writing it back unchanged

Every kind of block, on a big-endian host. All but the extended attributes come back on every
content, however corrupt.
-/

namespace Ocfs2Tools.Swap

open List

/-- The kinds of blocks; a directory block may have a trailer. -/
inductive Kind where
  | inode
  | extentBlock
  | refcountBlock
  | dirBlock (trailer : Bool)
  | xattrBlock
  | xattrBucket
deriving DecidableEq, Repr

variable (base size : Nat)

def toCpu : Kind → Mem → Mem
  | .inode => swapInodeToCpu base size
  | .extentBlock => swapExtentBlockToCpu base size
  | .refcountBlock => swapRefcountBlockToCpu base size
  | .dirBlock trailer => swapDirBlockToCpu size trailer
  | .xattrBlock => swapXattrBlockToCpu base size
  | .xattrBucket => swapXattrsToCpu base xattrBucketSize 0

def fromCpu : Kind → Mem → Mem
  | .inode => swapInodeFromCpu base size
  | .extentBlock => swapExtentBlockFromCpu base size
  | .refcountBlock => swapRefcountBlockFromCpu base size
  | .dirBlock trailer => swapDirBlockFromCpu size trailer
  | .xattrBlock => swapXattrBlockFromCpu base size
  | .xattrBucket => swapXattrsFromCpu base xattrBucketSize 0

/-- The object that bounds the attributes of a kind of block. -/
def objSize : Kind → Nat
  | .xattrBucket => xattrBucketSize
  | _ => size

/-- Where a block has its attributes, and what the swaps before them leave to their loop. -/
def xattrArea (m : Mem) : Kind → Option (Nat × Mem)
  | .inode =>
    if hasFlag (inodeInfo (inodeBodyToCpu base size m)).dynFeatures inlineXattrFl then
      some (inlineXattrs size (inodeInfo (inodeBodyToCpu base size m)), inodeBodyToCpu base size m)
    else none
  | .xattrBlock =>
    if isIndexed (swapFields m xattrBlockHeader) then none
    else some (0x30, swapFields m xattrBlockHeader)
  | .xattrBucket => some (0, m)
  | _ => none

/-- The inline attributes of an inode lie behind its fixed fields. -/
def InlineBehind (m : Mem) : Prop :=
  hasFlag (leAt m 0x76 2) inlineXattrFl = true → id2 + leAt m 0x12 2 ≤ size

/-- The parts of the attributes of a block do not overlap. -/
def AreaSeparate (kind : Kind) (m : Mem) : Prop :=
  ∀ xh m', xattrArea base size m kind = some (xh, m') → Separate base (objSize size kind) xh m'

/-- No attribute entry of a block is stranded that tells the byte orders apart. -/
def NoneStranded (kind : Kind) (m : Mem) : Prop :=
  ∀ xh m', xattrArea base size m kind = some (xh, m') →
    ∀ k, Stranded base (objSize size kind) xh m' k → Symmetric m' (entryAt xh k)

variable {base size} {m : Mem}

/-! ### Where attributes are -/

theorem entriesFields_ge {limit xh : Nat} : ∀ n i : Nat,
    ∀ f ∈ entriesFields base limit xh m n i, xh ≤ f.off
  | 0, _, _, hf => nomatch hf
  | n + 1, i, f, hf => by
    unfold entriesFields at hf
    split at hf
    · rcases mem_append.mp hf with hf | hf
      · have := (xattrEntryFields_bound _ f hf).1
        unfold entryAt at this
        omega
      · split at hf
        · cases hf
        · rcases mem_append.mp hf with hf | hf
          · unfold valueFields diskValueAt at hf
            split at hf
            · cases hf
            · rcases mem_append.mp hf with hf | hf
              · simp only [xattrRootFields, mem_cons, not_mem_nil, or_false] at hf
                rcases hf with rfl | rfl <;> dsimp only <;> omega
              · have := listFields_ge _ _ _ _ f hf
                omega
          · exact entriesFields_ge n (i + 1) f hf
    · cases hf

theorem swapXattrsToCpu_agreeBelow {limit xh : Nat} (h : Separate base limit xh m) :
    AgreeBelow xh m (swapXattrsToCpu base limit xh m) := by
  rw [swapXattrsToCpu_eq h]
  exact swapFields_agreeBelow _ (forall_mem_append.mpr
    ⟨fun f hf => (xattrHeaderFields_bound xh f hf).1, entriesFields_ge _ _⟩)

/-! ### Xattr blocks -/

theorem xattrBlock_iff (hsep : AreaSeparate base size .xattrBlock m) :
    swapXattrBlockFromCpu base size (swapXattrBlockToCpu base size m) = m ↔
      NoneStranded base size .xattrBlock m := by
  have hinv := swapFields_involutive (show xattrBlockHeader.Pairwise Field.Apart by decide)
  have hkeep : ∀ {m'}, AgreeBelow 0x30 (swapFields m xattrBlockHeader) m' →
      isIndexed m' = isIndexed (swapFields m xattrBlockHeader) := by
    intro m' h
    rw [isIndexed, h.beAt (by decide), isIndexed]
  -- the header is swapped back at the end, so the body alone has to come back
  have hbody : swapXattrBlockFromCpu base size (swapXattrBlockToCpu base size m) = m ↔
      xattrBodyFromCpu base size (xattrBodyToCpu base size (swapFields m xattrBlockHeader)) =
        swapFields m xattrBlockHeader :=
    hinv.eq_iff
  rw [hbody]
  cases hindexed : isIndexed (swapFields m xattrBlockHeader) with
  | true =>
    have hroot : AgreeBelow 0x30 (swapFields m xattrBlockHeader)
        (swapFields (swapFields m xattrBlockHeader) (xattrRootFields 0x30)) :=
      swapFields_agreeBelow _ (by decide)
    have hlist : AgreeBelow 0x30 (swapFields m xattrBlockHeader) (swapExtentListToCpu base size 0x40
        (swapFields (swapFields m xattrBlockHeader) (xattrRootFields 0x30))) := fun x hx =>
      (swapExtentListToCpu_agreeBelow base size _ x (lt_trans hx (by decide))).trans (hroot x hx)
    simp only [xattrBodyToCpu, xattrBodyFromCpu, hindexed, if_true, hkeep hlist]
    rw [extentList_fromCpu_toCpu, swapFields_swapFields _ (xattrRootFields_apart _)]
    simp [NoneStranded, xattrArea, hindexed]
  | false =>
    have harea : xattrArea base size m .xattrBlock =
        some (0x30, swapFields m xattrBlockHeader) := by simp [xattrArea, hindexed]
    have hs : Separate base size 0x30 (swapFields m xattrBlockHeader) := hsep _ _ harea
    simp only [xattrBodyToCpu, xattrBodyFromCpu, hindexed, Bool.false_eq_true, if_false,
      hkeep (swapXattrsToCpu_agreeBelow hs)]
    rw [swapXattrs_fromCpu_toCpu_iff hs]
    simp [NoneStranded, harea, objSize]

/-! ### Inodes -/

theorem inodeInfo_body (m : Mem) : inodeInfo (inodeBodyToCpu base size m) =
    inodeInfo (swapFields m inodeFirstFields) := by
  unfold inodeBodyToCpu inodeExtentsToCpu
  have h1 := inodeInfo_agreeBelow ((swapInlineDir_agreeBelow true size (swapInodeThird base size
    (swapInodeSecond (swapFields m inodeFirstFields)))).mono (by decide))
  rw [inodeInfo_agreeBelow (swapInodeThird_agreeBelow base size _),
    inodeInfo_agreeBelow (swapInodeSecond_agreeBelow _)] at h1
  split
  · rw [inodeInfo_agreeBelow ((swapExtentListToCpu_agreeBelow base size _).mono (by decide)), h1]
  · exact h1

theorem inodeInfo_first (m : Mem) :
    (inodeInfo (swapFields m inodeFirstFields)).dynFeatures = leAt m 0x76 2 ∧
      (inodeInfo (swapFields m inodeFirstFields)).xattrInlineSize = leAt m 0x12 2 := by
  have happ : inodeFirstFields.Pairwise Field.Apart := by decide
  exact ⟨beAt_swapFields_mem happ (by decide), beAt_swapFields_mem happ (by decide)⟩

theorem inode_iff (hbehind : InlineBehind size m) (hsep : AreaSeparate base size .inode m) :
    swapInodeFromCpu base size (swapInodeToCpu base size m) = m ↔
      NoneStranded base size .inode m := by
  -- everything else is undone behind the attributes
  have hbody : swapInodeFromCpu base size (swapInodeToCpu base size m) = m ↔
      inodeXattrsFromCpu base size (inodeXattrsToCpu base size (inodeBodyToCpu base size m)) =
        inodeBodyToCpu base size m := by
    constructor
    · intro h
      have := congrArg (inodeBodyToCpu base size) h
      rwa [swapInodeFromCpu, inodeBody_toCpu_fromCpu] at this
    · intro h
      rw [swapInodeFromCpu, swapInodeToCpu, h, inodeBody_fromCpu_toCpu]
  rw [hbody]
  cases hflag : hasFlag (inodeInfo (inodeBodyToCpu base size m)).dynFeatures inlineXattrFl with
  | false => simp [inodeXattrsToCpu, inodeXattrsFromCpu, hflag, NoneStranded, xattrArea]
  | true =>
    have harea : xattrArea base size m .inode =
        some (inlineXattrs size (inodeInfo (inodeBodyToCpu base size m)),
          inodeBodyToCpu base size m) := by simp [xattrArea, hflag]
    have hs : Separate base size (inlineXattrs size (inodeInfo (inodeBodyToCpu base size m)))
        (inodeBodyToCpu base size m) := hsep _ _ harea
    have hplace : infoEnd ≤ inlineXattrs size (inodeInfo (inodeBodyToCpu base size m)) := by
      rw [inodeInfo_body] at hflag
      have := hbehind hflag
      rw [inodeInfo_body, inlineXattrs, (inodeInfo_first m).2]
      unfold id2 at this
      unfold infoEnd
      omega
    have hinfo := inodeInfo_agreeBelow ((swapXattrsToCpu_agreeBelow hs).mono hplace)
    simp only [inodeXattrsToCpu, inodeXattrsFromCpu, hflag, if_true, hinfo]
    rw [swapXattrs_fromCpu_toCpu_iff hs]
    simp [NoneStranded, harea, objSize]

/-! ### All kinds -/

theorem fromCpu_toCpu_separate (base size : Nat) (kind : Kind) (m : Mem)
    (hbehind : kind = .inode → InlineBehind size m) (hsep : AreaSeparate base size kind m) :
    fromCpu base size kind (toCpu base size kind m) = m ↔ NoneStranded base size kind m := by
  cases kind with
  | inode => exact inode_iff (hbehind rfl) hsep
  | extentBlock =>
    exact iff_of_true (extentBlock_fromCpu_toCpu base size m) (by simp [NoneStranded, xattrArea])
  | refcountBlock =>
    exact iff_of_true (refcountBlock_fromCpu_toCpu base size m) (by simp [NoneStranded, xattrArea])
  | dirBlock trailer =>
    exact iff_of_true (dirBlock_fromCpu_toCpu size trailer m) (by simp [NoneStranded, xattrArea])
  | xattrBlock => exact xattrBlock_iff hsep
  | xattrBucket =>
    have hs := hsep 0 m rfl
    refine (swapXattrs_fromCpu_toCpu_iff hs).trans ?_
    simp [NoneStranded, xattrArea, objSize]

/-- **A block comes back** as it was if its attributes do not overlap and no entry is stranded:
    none has a value that would leave the object. Among the contents that do not overlap these are
    all that come back. -/
theorem fromCpu_toCpu_back (base size : Nat) (kind : Kind) (m : Mem)
    (hbehind : kind = .inode → InlineBehind size m) :
    (AreaSeparate base size kind m ∧ NoneStranded base size kind m →
      fromCpu base size kind (toCpu base size kind m) = m) ∧
    (AreaSeparate base size kind m → fromCpu base size kind (toCpu base size kind m) = m →
      NoneStranded base size kind m) := by
  constructor
  · rintro ⟨hsep, hnone⟩
    exact (fromCpu_toCpu_separate base size kind m hbehind hsep).mpr hnone
  · intro hsep
    exact (fromCpu_toCpu_separate base size kind m hbehind hsep).mp

/-- A bucket with one local entry; its value starts at 64 and is `size` bytes long. -/
def oneEntryBucket (size : Nat) : Mem :=
  writeBytes (writeBytes (fun _ => 0) 0 (leBytes 2 1)) 16
    (leBytes 4 0x01020304 ++ leBytes 2 64 ++ [0, 0x80] ++ leBytes 8 size)

theorem fromCpu_toCpu_oneEntry : fromCpu 0 4096 .xattrBucket
    (toCpu 0 4096 .xattrBucket (oneEntryBucket 100)) = oneEntryBucket 100 := by
  refine (fromCpu_toCpu_back 0 4096 .xattrBucket (oneEntryBucket 100) nofun).1 ⟨?_, ?_⟩
  · intro xh m' harea
    obtain ⟨rfl, rfl⟩ : 0 = xh ∧ oneEntryBucket 100 = m' := by simpa [xattrArea] using harea
    decide +kernel
  · intro xh m' harea k hk
    obtain ⟨rfl, rfl⟩ : 0 = xh ∧ oneEntryBucket 100 = m' := by simpa [xattrArea] using harea
    have hcount : leAt (oneEntryBucket 100) 0 2 = 1 := by decide +kernel
    have hlt := (hk.looks k (le_refl k)).1
    obtain rfl : k = 0 := by omega
    exact absurd hk.leaves (by decide +kernel)

/-- A bucket with two entries whose value roots start 8 bytes apart. -/
def twoRootsBucket : Mem :=
  writeBytes (writeBytes (writeBytes (fun _ => 0) 0 (leBytes 2 2)) 16
    (leBytes 4 0 ++ leBytes 2 256 ++ leBytes 10 0 ++ leBytes 4 0 ++ leBytes 2 264 ++ leBytes 10 0))
    264 [5, 6, 7, 8, 9, 10, 11, 12]

/-- A value that runs over the end of the bucket leaves its entry in the wrong order, and two
    values that overlap are swapped one after the other both times. -/
theorem fromCpu_toCpu_differs :
    fromCpu 0 4096 .xattrBucket (toCpu 0 4096 .xattrBucket (oneEntryBucket 5000)) ≠
        oneEntryBucket 5000 ∧
      fromCpu 0 4096 .xattrBucket (toCpu 0 4096 .xattrBucket twoRootsBucket) ≠ twoRootsBucket := by
  constructor
  · intro h
    have hbyte := congrFun h 16
    revert hbyte
    decide +kernel
  · intro h
    have hbyte := congrFun h 264
    revert hbyte
    decide +kernel

end Ocfs2Tools.Swap
