import Ocfs2Tools.Fsck.Pass2

/-!
# The repair of one entry, and the blocks that can be repaired

A repair other than a removal settles the lengths of the entry in at most two turns. But an
entry that starts 12 bytes before the end can be neither accepted nor repaired, and the removal
of an entry without a name clears as many bytes as the *next* entry is long. The other checks
may change lengths too: the entry `.` is split from what is behind it, and a duplicate gets a
longer name. `Repairable` walks the block past these points.

Neither the repairs nor the checks look at anything before the entry, or change it. This is
stated with `splice`: they commute with an exchange of the bytes before the entry.
-/

namespace Ocfs2Tools.Pass2

open Dir

variable {w : Walk} {seen seen' : Seen} {b b' low : Buf} {a left r n blocksize : Nat} {x : Nat}

/-! ### One repair -/

/-- An entry that the repair removes: it is only a header. -/
def HeaderOnly (b : Buf) (a left : Nat) : Prop := recLen b a = dirMemberLen ∧ nameLen b a ≤ left

instance (b : Buf) (a left : Nat) : Decidable (HeaderOnly b a left) :=
  inferInstanceAs (Decidable (_ ∧ _))

/-- The record length looks rounded in the wrong way. -/
def Misrounded (r n left : Nat) : Prop :=
  ¬(r < dirMemberLen ∨ left < r ∨ left < n) ∧ dirRecLen n ≠ r ∧ dirRecLen n = dirRecLen r

instance (r n left : Nat) : Decidable (Misrounded r n left) :=
  inferInstanceAs (Decidable (_ ∧ _))

theorem lengthsOk_left (h16 : 16 ≤ left) (h4 : left % 4 = 0) : LengthsOk left 0 left where
  min := h16
  aligned := h4
  le := Nat.le_refl _
  name := by
    unfold dirRecLen
    omega
  whole := by
    unfold LeavesPartial
    omega

theorem blank_recLen (b : Buf) (a : Nat) : recLen (blank b a) a = recLen b a := by simp [blank]

theorem blank_nameLen (b : Buf) (a : Nat) : nameLen (blank b a) a = 0 := by
  simp only [blank, nameLen_setFileType, nameLen_setInode]
  exact nameLen_setNameLen (by decide)

theorem padPartial_outside {l : Int} (h : x < a + 8 ∨ a + 10 ≤ x) : padPartial b a l x = b x := by
  unfold padPartial
  split
  · exact setRecLen_outside h
  · rfl

@[simp] theorem nameLen_padPartial (b : Buf) (a : Nat) (l : Int) :
    nameLen (padPartial b a l) a = nameLen b a := by
  rw [nameLen, padPartial_outside (by omega), nameLen]

theorem wipe_ok (b : Buf) (a : Nat) (h16 : 16 ≤ left) (h4 : left % 4 = 0) (hlt : left < 65536) :
    LengthsOk (recLen (padPartial (blank (setRecLen b a left) a) a 0) a)
      (nameLen (padPartial (blank (setRecLen b a left) a) a 0) a) left := by
  have hr : recLen (blank (setRecLen b a left) a) a = left := by
    rw [blank_recLen, recLen_setRecLen hlt]
  rw [nameLen_padPartial, blank_nameLen, padPartial, if_neg, hr]
  · exact lengthsOk_left h16 h4
  · unfold LeavesPartial
    omega

theorem recLen_padPartial (h : recLen b a ≤ left) (hlt : left < 65536) :
    recLen (padPartial b a ((left : Int) - recLen b a)) a =
      if LeavesPartial (recLen b a) ((left : Int) - recLen b a) then left else recLen b a := by
  unfold padPartial
  split
  · rw [recLen_setRecLen (by omega)]
    omega
  · rfl

theorem dirRecLen_eq_misrounded (h : Misrounded r n left) : 24 ≤ dirRecLen n := by
  obtain ⟨h1, -, h2⟩ := h
  rw [h2]
  unfold dirMemberLen at h1
  unfold dirRecLen
  omega

section Repair

variable (h16 : 16 ≤ left) (h4 : left % 4 = 0) (hlt : left < 65536)

include h16 h4 hlt

/-- A misrounded entry may have to be wiped, but it is not misrounded any more. -/
theorem misrounded_repaired {m : Nat} (hm : dirRecLen (nameLen b a) = m)
    (hmis : Misrounded (recLen b a) (nameLen b a) left)
    (hb' : padPartial (setRecLen b a m) a (left - m) = b') :
    LengthsOk (recLen b' a) (nameLen b' a) left ∨
      ¬HeaderOnly b' a left ∧ ¬Misrounded (recLen b' a) (nameLen b' a) left := by
  have h24 : 24 ≤ m := hm ▸ dirRecLen_eq_misrounded hmis
  have hm4 : m < 65536 := by
    have := nameLen_lt b a
    unfold dirRecLen at hm
    omega
  have hrec : recLen (setRecLen b a m) a = m := recLen_setRecLen hm4
  have hn : nameLen b' a = nameLen b a := by rw [← hb', nameLen_padPartial, nameLen_setRecLen]
  by_cases hpad : LeavesPartial m (left - m)
  · have hle : m ≤ left := by
      unfold LeavesPartial at hpad
      omega
    have hr := recLen_padPartial (b := setRecLen b a m) (a := a) (hrec.symm ▸ hle) hlt
    rw [hrec, if_pos hpad, hb'] at hr
    rw [hr, hn]
    refine .inl ⟨h16, h4, Nat.le_refl _, hm ▸ hle, ?_⟩
    unfold LeavesPartial
    omega
  · rw [padPartial, hrec, if_neg hpad] at hb'
    rw [← hb'] at hn ⊢
    refine .inr ⟨fun hh => ?_, fun hmis' => hmis'.2.1 ?_⟩
    · have := hh.1
      unfold dirMemberLen at this
      omega
    · rw [hn, hrec, hm]

/-- **One repair** of an entry that is not only a header. -/
theorem fixDirentLengths_repaired (blocksize : Nat) (hh : ¬HeaderOnly b a left) :
    ∃ b', fixDirentLengths blocksize b a left = some b' ∧
      (LengthsOk (recLen b' a) (nameLen b' a) left ∨
        Misrounded (recLen b a) (nameLen b a) left ∧ ¬HeaderOnly b' a left ∧
          ¬Misrounded (recLen b' a) (nameLen b' a) left) := by
  have hwiped := wipe_ok b a h16 h4 hlt
  simp only [fixDirentLengths]
  split
  · exact ⟨_, rfl, .inl hwiped⟩
  rename_i h1
  have h2 : recLen b a ≠ dirMemberLen := fun h => hh ⟨h, by omega⟩
  rw [if_neg h2]
  split
  · next h3 =>
    have hmis : Misrounded (recLen b a) (nameLen b a) left := ⟨h1, h3.1, h3.2⟩
    refine ⟨_, rfl, (misrounded_repaired h16 h4 hlt rfl hmis rfl).imp_right fun h => ⟨hmis, h⟩⟩
  by_cases h5 : recLen b a % 4 = 0 ∧ ¬LeavesPartial (recLen b a) left
  · -- only the name is lost
    rw [if_pos h5]
    have hrec := blank_recLen b a
    have hle : recLen b a ≤ left := by omega
    have hge : 16 ≤ recLen b a := by
      unfold dirMemberLen at h1 h2
      omega
    have hpad := recLen_padPartial (by rw [hrec]; exact hle) hlt
    rw [hrec] at hpad
    refine ⟨_, rfl, .inl ?_⟩
    rw [hpad, nameLen_padPartial, blank_nameLen]
    split
    · exact lengthsOk_left h16 h4
    · refine ⟨hge, h5.1, hle, ?_, h5.2⟩
      unfold dirRecLen
      omega
  · rw [if_neg h5]
    exact ⟨_, rfl, .inl hwiped⟩

end Repair

/-! ### The entry after its repairs -/

def repaired (blocksize : Nat) (b : Buf) (a left : Nat) : Buf :=
  (fixDirentLengths blocksize b a left).getD b

/-- The block when the lengths of the entry at `a` are in order: a misrounded entry may need a
    second repair. -/
def settle (blocksize : Nat) (b : Buf) (a left : Nat) : Buf :=
  if corruptDirentLengths b a left = false then b
  else if corruptDirentLengths (repaired blocksize b a left) a left = false then
    repaired blocksize b a left
  else repaired blocksize (repaired blocksize b a left) a left

theorem corrupt_eq_false :
    corruptDirentLengths b a left = false ↔ LengthsOk (recLen b a) (nameLen b a) left := by
  simp [corruptDirentLengths]

theorem settle_of_ok (h : LengthsOk (recLen b a) (nameLen b a) left) :
    settle blocksize b a left = b :=
  if_pos (corrupt_eq_false.2 h)

section Settle

variable (h16 : 16 ≤ left) (h4 : left % 4 = 0) (hlt : left < 65536) (hh : ¬HeaderOnly b a left)

include h16 h4 hlt hh

theorem settle_cases (blocksize : Nat) (hbad : ¬LengthsOk (recLen b a) (nameLen b a) left) :
    ∃ b1, fixDirentLengths blocksize b a left = some b1 ∧
      (LengthsOk (recLen b1 a) (nameLen b1 a) left ∧ settle blocksize b a left = b1 ∨
        ¬LengthsOk (recLen b1 a) (nameLen b1 a) left ∧ ¬HeaderOnly b1 a left ∧
        ∃ b2, fixDirentLengths blocksize b1 a left = some b2 ∧
          LengthsOk (recLen b2 a) (nameLen b2 a) left ∧ settle blocksize b a left = b2) := by
  obtain ⟨b1, hfix, hcases⟩ := fixDirentLengths_repaired h16 h4 hlt blocksize hh
  have hrep : repaired blocksize b a left = b1 := by rw [repaired, hfix, Option.getD_some]
  refine ⟨b1, hfix, ?_⟩
  rw [settle, if_neg (by rw [corrupt_eq_false]; exact hbad), hrep]
  by_cases hok : LengthsOk (recLen b1 a) (nameLen b1 a) left
  · exact .inl ⟨hok, if_pos (corrupt_eq_false.2 hok)⟩
  · obtain ⟨-, hh1, hmis⟩ := hcases.resolve_left hok
    obtain ⟨b2, hfix2, hcases2⟩ := fixDirentLengths_repaired h16 h4 hlt blocksize hh1
    have hok2 := hcases2.resolve_right fun h => hmis h.1
    refine .inr ⟨hok, hh1, b2, hfix2, hok2, ?_⟩
    rw [if_neg (by rw [corrupt_eq_false]; exact hok), repaired, hfix2, Option.getD_some]

theorem settle_ok (blocksize : Nat) : LengthsOk (recLen (settle blocksize b a left) a)
    (nameLen (settle blocksize b a left) a) left := by
  by_cases hok : LengthsOk (recLen b a) (nameLen b a) left
  · rw [settle_of_ok hok]
    exact hok
  · obtain ⟨b1, -, ⟨hok1, hs⟩ | ⟨-, -, b2, -, hok2, hs⟩⟩ := settle_cases h16 h4 hlt hh blocksize hok
    · rw [hs]
      exact hok1
    · rw [hs]
      exact hok2

theorem settle_fix (hbad : ¬LengthsOk (recLen b a) (nameLen b a) left)
    (hfix : fixDirentLengths blocksize b a left = some b') :
    ¬HeaderOnly b' a left ∧ settle blocksize b' a left = settle blocksize b a left := by
  obtain ⟨b1, hfix1, hcases⟩ := settle_cases h16 h4 hlt hh blocksize hbad
  rw [hfix] at hfix1
  cases hfix1
  rcases hcases with ⟨hok, hs⟩ | ⟨hbad1, hh1, b2, hfix2, hok2, hs⟩
  · refine ⟨fun h => ?_, by rw [hs, settle_of_ok hok]⟩
    have h1 := hok.min
    rw [h.1] at h1
    exact absurd h1 (by decide)
  · refine ⟨hh1, ?_⟩
    obtain ⟨b3, hfix3, hcases⟩ := settle_cases h16 h4 hlt hh1 blocksize hbad1
    rw [hfix2] at hfix3
    cases hfix3
    rcases hcases with ⟨-, hs'⟩ | ⟨hbad2, -⟩
    · rw [hs, hs']
    · exact absurd hok2 hbad2

end Settle

/-! ### Which blocks can be repaired -/

/-- From the entry at an offset on, the loop comes to the end and all lengths are in order: no
    entry starts 12 bytes before it, behind an entry that is removed no longer one follows than
    there is room to clear behind the end, and the checks leave the name inside of its record.
    If the entries are moved together, one without a name must not be in use. -/
inductive Repairable (w : Walk) : Seen → Buf → Nat → Prop where
  | done (seen : Seen) (b : Buf) : Repairable w seen b w.stop
  | record (seen seen' : Seen) (b b' : Buf) (a : Nat) (room : a + 16 ≤ w.stop)
      (header : ¬HeaderOnly b a (w.stop - a))
      (check : checkDirent w seen (settle w.blocksize b a (w.stop - a)) a = some (seen', b'))
      (fits : EntryOk b' a)
      (named : w.compressDirs = true → inode b' a ≠ 0 → nameLen b' a ≠ 0)
      (rest : Repairable w seen' b' (a + recLen b' a)) : Repairable w seen b a
  | remove (seen : Seen) (b : Buf) (a : Nat) (room : a + 16 ≤ w.stop)
      (header : HeaderOnly b a (w.stop - a))
      (fits : w.stop - dirMemberLen +
        recLen (moveBytes b a (a + dirMemberLen) (w.stop - a - dirMemberLen)) a ≤ w.blocksize)
      (rest : Repairable w seen (removeDirent b a (w.stop - a)) a) : Repairable w seen b a

/-! ### The turns of the loop -/

theorem direntLoop_done (w : Walk) (fuel : Nat) (seen : Seen) (b : Buf) (prev : Option Nat)
    (writeOff : Nat) (h : w.stop ≤ a) :
    direntLoop w (fuel + 1) seen b a prev writeOff = some (seen, b) := by
  rw [direntLoop, if_pos h]

theorem direntLoop_fix (w : Walk) (fuel : Nat) (seen : Seen) (prev : Option Nat) (writeOff : Nat)
    (h : a < w.stop) (hbad : ¬LengthsOk (recLen b a) (nameLen b a) (w.stop - a)) :
    direntLoop w (fuel + 1) seen b a prev writeOff =
      (fixDirentLengths w.blocksize b a (w.stop - a)).bind
        fun b => direntLoop w fuel seen b a prev writeOff := by
  rw [direntLoop, if_neg (by omega), corruptDirentLengths, if_pos (decide_eq_true hbad)]
  cases fixDirentLengths w.blocksize b a (w.stop - a) <;> rfl

theorem direntLoop_accept (w : Walk) (fuel : Nat) (seen : Seen) (prev : Option Nat)
    (writeOff : Nat) (h : a < w.stop)
    (hok : LengthsOk (recLen b a) (nameLen b a) (w.stop - a)) :
    direntLoop w (fuel + 1) seen b a prev writeOff = (checkDirent w seen b a).bind fun p =>
      direntLoop w fuel p.1 (placeDirent w.compressDirs p.2 a prev writeOff).1 (a + recLen p.2 a)
        (some (placeDirent w.compressDirs p.2 a prev writeOff).2.1)
        (placeDirent w.compressDirs p.2 a prev writeOff).2.2 := by
  rw [direntLoop, if_neg (by omega), if_neg (by rw [corrupt_eq_false.2 hok]; decide)]
  cases checkDirent w seen b a <;> rfl

theorem fixDirentLengths_remove (h : HeaderOnly b a left) (h12 : 12 ≤ left) :
    fixDirentLengths blocksize b a left =
      if blocksize < a + (left - dirMemberLen) +
          recLen (moveBytes b a (a + dirMemberLen) (left - dirMemberLen)) a then none
      else some (removeDirent b a left) := by
  obtain ⟨hr, hn⟩ := h
  have hm : dirMemberLen = 12 := rfl
  simp only [fixDirentLengths, hr]
  rw [if_neg (by omega), if_pos trivial]

/-! ### Nothing before the entry matters -/

theorem blank_splice : blank (splice low b a) a = splice low (blank b a) a := by
  have h := Nat.le_refl a
  rw [blank, setNameLen_splice h, setInode_splice h, setFileType_splice h, blank]

theorem padPartial_splice (l : Int) :
    padPartial (splice low b a) a l = splice low (padPartial b a l) a := by
  have h := Nat.le_refl a
  rw [padPartial, padPartial, recLen_splice h]
  split
  · exact setRecLen_splice h
  · rfl

theorem removeDirent_splice : removeDirent (splice low b a) a left =
    splice low (removeDirent b a left) a := by
  have h := Nat.le_refl a
  simp only [removeDirent]
  rw [moveBytes_splice h (by omega), recLen_splice h, clearBytes_splice (by omega),
    padPartial_splice]

theorem headerOnly_splice : HeaderOnly (splice low b a) a left ↔ HeaderOnly b a left := by
  have h := Nat.le_refl a
  rw [HeaderOnly, HeaderOnly, recLen_splice h, nameLen_splice h]

theorem fixDirentLengths_splice (blocksize : Nat) (low b : Buf) (a left : Nat) :
    fixDirentLengths blocksize (splice low b a) a left =
      (fixDirentLengths blocksize b a left).map (splice low · a) := by
  have h := Nat.le_refl a
  simp only [fixDirentLengths, recLen_splice h, nameLen_splice h, setRecLen_splice h,
    blank_splice, padPartial_splice, removeDirent_splice,
    moveBytes_splice h (Nat.le_add_right a (recLen b a))]
  split_ifs <;> rfl

theorem settle_splice : settle blocksize (splice low b a) a left =
    splice low (settle blocksize b a left) a := by
  have h := Nat.le_refl a
  have hrep : ∀ b, repaired blocksize (splice low b a) a left =
      splice low (repaired blocksize b a left) a := by
    intro b
    rw [repaired, repaired, fixDirentLengths_splice]
    cases fixDirentLengths blocksize b a left <;> rfl
  have hcor : ∀ b, corruptDirentLengths (splice low b a) a left =
      corruptDirentLengths b a left := by
    intro b
    rw [corruptDirentLengths, corruptDirentLengths, recLen_splice h, nameLen_splice h]
  simp only [settle, hrep, hcor]
  split_ifs <;> rfl

/-! ### The checks -/

theorem direntHasDots_splice (dots : Nat) :
    direntHasDots (splice low b a) a dots = direntHasDots b a dots := by
  rw [direntHasDots, direntHasDots, nameLen_splice (Nat.le_refl a), splice_of_le (by omega),
    splice_of_le (by omega)]

theorem clobberDots_splice (dots : Nat) : clobberDots w (splice low b a) a dots =
    (splice low (clobberDots w b a dots).1 a, (clobberDots w b a dots).2) := by
  have h := Nat.le_refl a
  simp only [clobberDots, direntHasDots_splice, setNameLen_splice h,
    writeBytes_splice (Nat.le_add_right a dirMemberLen), setFileType_splice h]
  split_ifs <;> rfl

theorem splitExcess_splice (changed : Bool) : splitExcess w (splice low b a) a changed =
    (splitExcess w b a changed).map (splice low · a) := by
  have h := Nat.le_refl a
  have h' := Nat.le_add_right a (dirRecLen (nameLen b a))
  simp only [splitExcess, nameLen_splice h, recLen_splice h, setRecLen_splice h,
    setInode_splice h', setNameLen_splice h', recLen_splice h', setRecLen_splice h']
  split_ifs <;> rfl

theorem fixDirentDots_splice : fixDirentDots w (splice low b a) a =
    (fixDirentDots w b a).map (splice low · a) := by
  have h := Nat.le_refl a
  simp only [fixDirentDots, inode_splice h, direntHasDots_splice, clobberDots_splice,
    setInode_splice h]
  split_ifs <;> first | rfl | exact splitExcess_splice _

theorem direntName_splice : direntName (splice low b a) a = direntName b a := by
  rw [direntName, nameLen_splice (Nat.le_refl a), bytesAt_splice (by omega), direntName]

theorem fixDirentName_splice : fixDirentName w (splice low b a) a =
    splice low (fixDirentName w b a) a := by
  have h := Nat.le_refl a
  simp only [fixDirentName, nameLen_splice h, setInode_splice h]
  split_ifs <;> simp only [direntName_splice, writeBytes_splice (Nat.le_add_right a dirMemberLen)]

theorem fixDirentInode_splice : fixDirentInode w (splice low b a) a =
    splice low (fixDirentInode w b a) a := by
  have h := Nat.le_refl a
  simp only [fixDirentInode, inode_splice h, setInode_splice h]
  split_ifs <;> rfl

theorem fixDirentFiletype_splice : fixDirentFiletype w (splice low b a) a =
    splice low (fixDirentFiletype w b a) a := by
  have h := Nat.le_refl a
  simp only [fixDirentFiletype, inode_splice h, fileType_splice h, setFileType_splice h]
  split_ifs <;> rfl

theorem fixDirentLinkage_splice (parents : List Nat) :
    fixDirentLinkage w parents (splice low b a) a =
      ((fixDirentLinkage w parents b a).1, splice low (fixDirentLinkage w parents b a).2 a) := by
  have h := Nat.le_refl a
  simp only [fixDirentLinkage, inode_splice h, setInode_splice h]
  split_ifs <;> rfl

theorem newName_splice (names : List (List UInt8)) :
    newName names (splice low b a) a = newName names b a := by
  have h := Nat.le_refl a
  have hbytes : ∀ i, splice low b a (a + dirMemberLen + i) = b (a + dirMemberLen + i) :=
    fun i => splice_of_le (by omega)
  simp only [newName, recLen_splice h, nameLen_splice h, hbytes]

theorem fixDirentDups_splice (names : List (List UInt8)) :
    fixDirentDups names (splice low b a) a =
      ((fixDirentDups names b a).1, splice low (fixDirentDups names b a).2 a) := by
  have h := Nat.le_refl a
  simp only [fixDirentDups, direntName_splice, newName_splice, setNameLen_splice h,
    writeBytes_splice (Nat.le_add_right a dirMemberLen)]
  split_ifs
  · cases newName (keptStrings names) b a <;> rfl
  · rfl

theorem fixDirentDup_splice (names : List (List UInt8)) :
    fixDirentDup w names (splice low b a) a =
      (fixDirentDup w names b a).map fun p => (p.1, splice low p.2 a) := by
  simp only [fixDirentDup, nameExists_iff, direntName_splice, fixDirentDups_splice,
    nameLen_splice (Nat.le_refl a)]
  split_ifs <;> rfl

theorem checkUsed_splice : checkUsed w seen (splice low b a) a =
    (checkUsed w seen b a).map fun p => (p.1, splice low p.2 a) := by
  simp only [checkUsed, inode_splice (Nat.le_refl a), fixDirentName_splice, fixDirentInode_splice,
    fixDirentFiletype_splice, fixDirentLinkage_splice, fixDirentDup_splice]
  split_ifs <;> try rfl
  rw [Option.map_map, Option.map_map]
  rfl

/-- **The checks** neither read nor write anything before the entry. -/
theorem checkDirent_splice (w : Walk) (seen : Seen) (low b : Buf) (a : Nat) :
    checkDirent w seen (splice low b a) a =
      (checkDirent w seen b a).map fun p => (p.1, splice low p.2 a) := by
  rw [checkDirent, checkDirent, fixDirentDots_splice]
  cases fixDirentDots w b a with
  | none => rfl
  | some b =>
    simp only [Option.map_some, inode_splice (Nat.le_refl a), checkUsed_splice]
    split_ifs <;> rfl

theorem fixDirentLengths_below (h : fixDirentLengths blocksize b a left = some b') :
    ∀ x < a, b' x = b x := by
  have hs := fixDirentLengths_splice blocksize b b a left
  rw [splice_self, h] at hs
  intro x hx
  rw [Option.some.inj hs]
  exact splice_of_lt hx

theorem checkDirent_below (h : checkDirent w seen b a = some (seen', b')) :
    ∀ x < a, b' x = b x := by
  have hs := checkDirent_splice w seen b b a
  rw [splice_self, h] at hs
  intro x hx
  rw [(Prod.mk.inj (Option.some.inj hs)).2]
  exact splice_of_lt hx

theorem checkDirent_deleted (hdots : expectedDots w a = 0) (hdel : inode b a = 0) :
    checkDirent w seen b a = some (seen, b) := by
  have hd : fixDirentDots w b a = some b := by
    simp only [fixDirentDots, hdots, hdel, true_or, true_and, if_true]
  simp only [checkDirent, hd, hdel, if_true]

/-! ### The length after the checks -/

@[simp] theorem recLen_writeName (b : Buf) (a : Nat) (s : List UInt8) :
    recLen (writeBytes b (a + dirMemberLen) s) a = recLen b a := by
  have hm : dirMemberLen = 12 := rfl
  rw [recLen, writeBytes_outside (by omega), writeBytes_outside (by omega), recLen]

@[simp] theorem nameLen_writeName (b : Buf) (a : Nat) (s : List UInt8) :
    nameLen (writeBytes b (a + dirMemberLen) s) a = nameLen b a := by
  have hm : dirMemberLen = 12 := rfl
  rw [nameLen, writeBytes_outside (by omega), nameLen]

@[simp] theorem recLen_fixDirentName : recLen (fixDirentName w b a) a = recLen b a := by
  simp only [fixDirentName]
  split_ifs <;> simp

@[simp] theorem recLen_fixDirentInode : recLen (fixDirentInode w b a) a = recLen b a := by
  simp only [fixDirentInode]
  split_ifs <;> simp

@[simp] theorem recLen_fixDirentFiletype : recLen (fixDirentFiletype w b a) a = recLen b a := by
  simp only [fixDirentFiletype]
  split_ifs <;> simp

@[simp] theorem recLen_fixDirentLinkage (parents : List Nat) :
    recLen (fixDirentLinkage w parents b a).2 a = recLen b a := by
  simp only [fixDirentLinkage]
  split_ifs <;> simp

theorem recLen_fixDirentDup {names names' : List (List UInt8)}
    (h : fixDirentDup w names b a = some (names', b')) : recLen b' a = recLen b a := by
  have hdups : recLen (fixDirentDups names b a).2 a = recLen b a := by
    simp only [fixDirentDups]
    split_ifs
    · cases newName (keptStrings names) b a <;> simp
    · rfl
  simp only [fixDirentDup] at h
  split_ifs at h
  · cases h
    rfl
  · rw [← hdups, Option.some.inj h]

theorem recLen_checkUsed (h : checkUsed w seen b a = some (seen', b')) :
    recLen b' a = recLen b a := by
  simp only [checkUsed] at h
  split_ifs at h
  · cases h
    simp
  · cases h
    simp
  · cases h
    simp
  · obtain ⟨p, hdup, hp⟩ := Option.map_eq_some_iff.1 h
    cases hp
    rw [recLen_fixDirentDup hdup]
    simp

/-- Only `fix_dirent_dots` changes the length of a record. -/
theorem checkDirent_dots (h : checkDirent w seen b a = some (seen', b')) :
    ∃ b1, fixDirentDots w b a = some b1 ∧ recLen b' a = recLen b1 a := by
  rw [checkDirent] at h
  split at h
  · cases h
  · next b1 hdots =>
    refine ⟨b1, hdots, ?_⟩
    split_ifs at h
    · cases h
      rfl
    · exact recLen_checkUsed h

/-- A length in order is kept, or cut to what the name needs. -/
def Shortened (r r' : Nat) : Prop := r' % 4 = 0 ∧ 12 ≤ r' ∧ r' ≤ r

theorem splitExcess_shortened {changed : Bool} (hal : recLen b a % 4 = 0) (hmin : 12 ≤ recLen b a)
    (hname : dirRecLen (nameLen b a) ≤ recLen b a) (h : splitExcess w b a changed = some b') :
    Shortened (recLen b a) (recLen b' a) := by
  have hr : ∀ n, dirRecLen n % 4 = 0 ∧ 12 ≤ dirRecLen n := by
    intro n
    unfold dirRecLen
    omega
  simp only [splitExcess] at h
  split_ifs at h
  · have hhead : ∀ {c c' : Buf}, (∀ x < a + dirRecLen (nameLen b a), c' x = c x) →
        recLen c' a = recLen c a := fun hc => recLen_congr fun x _ hx => hc x (by
          have := (hr (nameLen b a)).2
          omega)
    have hlt := recLen_lt b a
    cases h
    rw [hhead fun x hx => setRecLen_outside (by omega),
      hhead fun x hx => setNameLen_outside (by omega),
      hhead fun x hx => setInode_outside (by omega), recLen_setRecLen (by omega)]
    exact ⟨(hr _).1, (hr _).2, hname⟩
  · cases h
    exact ⟨hal, hmin, Nat.le_refl _⟩

theorem clobberDots_lengths (dots : Nat) (hdots : dots < 3) :
    recLen (clobberDots w b a dots).1 a = recLen b a ∧
      dirRecLen (nameLen (clobberDots w b a dots).1 a) ≤ max 16 (dirRecLen (nameLen b a)) := by
  simp only [clobberDots]
  split_ifs
  · simp only [recLen_setFileType, recLen_writeName, recLen_setNameLen, nameLen_setFileType,
      nameLen_writeName, nameLen_setNameLen (show dots < 256 by omega), true_and]
    unfold dirRecLen
    omega
  · exact ⟨rfl, le_max_right _ _⟩

theorem expectedDots_lt (w : Walk) (a : Nat) : expectedDots w a < 3 := by
  unfold expectedDots
  split_ifs <;> decide

/-- **The length of a record** after the checks. -/
theorem checkDirent_shortened (hok : LengthsOk (recLen b a) (nameLen b a) left)
    (h : checkDirent w seen b a = some (seen', b')) : Shortened (recLen b a) (recLen b' a) := by
  obtain ⟨b1, hdots, hr⟩ := checkDirent_dots h
  have hmin : 16 ≤ recLen b a := hok.min
  have hsame : Shortened (recLen b a) (recLen b a) := ⟨hok.aligned, by omega, Nat.le_refl _⟩
  obtain ⟨hc, hn⟩ := @clobberDots_lengths w b a (expectedDots w a) (expectedDots_lt w a)
  rw [hr]
  simp only [fixDirentDots] at hdots
  split at hdots
  · cases hdots
    exact hsame
  split at hdots
  · cases hdots
    rw [recLen_setInode]
    exact hsame
  split at hdots
  · cases hdots
    rw [hc]
    exact hsame
  · generalize (clobberDots w b a (expectedDots w a)).1 = c at hc hn hdots
    have hname := hok.name
    have hle : dirRecLen (nameLen c a) ≤ recLen c a := by
      rw [hc]
      omega
    rw [← hc] at hsame ⊢
    split at hdots
    · rw [← recLen_setInode c a w.ino]
      refine splitExcess_shortened ?_ ?_ ?_ hdots
      · simpa using hsame.1
      · simpa using hsame.2.1
      · simpa using hle
    · exact splitExcess_shortened hsame.1 hsame.2.1 hle hdots

end Ocfs2Tools.Pass2
