import Ocfs2Tools.Fsck.DirentDups

/-!
# The entry loop of `fsck.ocfs2` pass 2

`pass2_dir_block_iterate` walks the entries of a directory block. An entry whose lengths
cannot be right is repaired in place and examined again; otherwise the other checks run on
it and the loop goes on behind it. Every question about the lengths is answered yes, the other
ones in any way. Looking up an inode, its type or its parent succeeds; otherwise the loop stops
and the block is not written.

A block is a store of bytes of which the first `blocksize` are the buffer; `none` stands
for a write behind the buffer and for a loop that has not ended.
-/

namespace Ocfs2Tools.Pass2

open Dir

/-! ### Repairing the lengths -/

/-- `dirent_leaves_partial`: behind the record there is room, but not for an entry. -/
def LeavesPartial (r : Nat) (left : Int) : Prop := 0 < left - r ∧ left - r < dirMemberLen

instance (r : Nat) (left : Int) : Decidable (LeavesPartial r left) :=
  inferInstanceAs (Decidable (_ ∧ _))

/-- The lengths of an entry with `left` bytes from its start to the end. -/
structure LengthsOk (r n left : Nat) : Prop where
  min : dirRecLen 1 ≤ r
  aligned : r % 4 = 0
  le : r ≤ left
  name : dirRecLen n ≤ r
  whole : ¬LeavesPartial r left

instance (r n left : Nat) : Decidable (LengthsOk r n left) :=
  decidable_of_iff (dirRecLen 1 ≤ r ∧ r % 4 = 0 ∧ r ≤ left ∧ dirRecLen n ≤ r ∧
      ¬LeavesPartial r left)
    ⟨fun h => ⟨h.1, h.2.1, h.2.2.1, h.2.2.2.1, h.2.2.2.2⟩, fun h => ⟨h.1, h.2, h.3, h.4, h.5⟩⟩

/-- `corrupt_dirent_lengths`. -/
def corruptDirentLengths (b : Buf) (a left : Nat) : Bool :=
  decide ¬LengthsOk (recLen b a) (nameLen b a) left

/-- The entry is emptied: no inode, no name, no type. -/
def blank (b : Buf) (a : Nat) : Buf :=
  setFileType (setInode (setNameLen b a 0) a 0) a ftUnknown

/-- The end of `fix_dirent_lengths`: a rest that is too short for an entry goes to this one.
    `left` is meant to be the space behind the entry. -/
def padPartial (b : Buf) (a : Nat) (left : Int) : Buf :=
  if LeavesPartial (recLen b a) left then setRecLen b a (recLen b a + left.toNat) else b

/-- The removal of an entry without a name: what is behind it moves forward. The number of
    bytes cleared at the end is the `rec_len` of the entry that moved here. -/
def removeDirent (b : Buf) (a left : Nat) : Buf :=
  let left := left - dirMemberLen
  let b := moveBytes b a (a + dirMemberLen) left
  padPartial (clearBytes b (a + left) (recLen b a)) a left

/-- `fix_dirent_lengths` on a buffer of `blocksize` bytes. -/
def fixDirentLengths (blocksize : Nat) (b : Buf) (a left : Nat) : Option Buf :=
  let r := recLen b a
  let n := nameLen b a
  if r < dirMemberLen ∨ left < r ∨ left < n then
    some (padPartial (blank (setRecLen b a left) a) a 0)
  else if r = dirMemberLen then
    if blocksize < a + (left - r) + recLen (moveBytes b a (a + r) (left - r)) a then none
    else some (removeDirent b a left)
  else if dirRecLen n ≠ r ∧ dirRecLen n = dirRecLen r then
    some (padPartial (setRecLen b a (dirRecLen n)) a ((left : Int) - dirRecLen n))
  else if r % 4 = 0 ∧ ¬LeavesPartial r left then
    some (padPartial (blank b a) a ((left : Int) - r))
  else some (padPartial (blank (setRecLen b a left) a) a 0)

/-! ### The other checks -/

/-- What is asked about an entry, other than about its lengths. -/
inductive Prompt where
  | dottyDup | notDotty | dotInode | dotExcess | zeroName | nameChars | inodeRange | inodeFree
  | type | parentDup | duplicate

/-- The block that is walked: its buffer, where the entries end, whether the entries are moved
    together, where it belongs (`e_ino`, `e_blkno`, `e_blkcount`), what is answered about an entry,
    and what is known about inodes. -/
structure Walk where
  blocksize : Nat
  stop : Nat
  compressDirs : Bool
  ino : Nat
  blkno : Nat
  blkcount : Nat
  answer : Prompt → Nat → Bool
  outOfRange : Nat → Bool
  allocated : Nat → Bool
  expectedType : Nat → Nat
  isDir : Nat → Bool

/-- What is remembered from entry to entry: the names of the directory, and the directories
    that an entry was found for. -/
structure Seen where
  names : List (List UInt8)
  parents : List Nat

/-- `offsetof(struct ocfs2_dinode, id2.i_data.id_data)`. -/
def inlineOff : Nat := 200

/-- `expected_dots`. -/
def expectedDots (w : Walk) (offset : Nat) : Nat :=
  if w.blkcount = 0 then
    if offset = 0 ∨ w.ino = w.blkno ∧ offset = inlineOff then 1
    else if offset = dirRecLen 1 ∨ w.ino = w.blkno ∧ offset = inlineOff + dirRecLen 1 then 2
    else 0
  else 0

/-- `dirent_has_dots`. -/
def direntHasDots (b : Buf) (a dots : Nat) : Bool :=
  (dots == 1 || dots == 2) && dots == nameLen b a && (dots != 2 || b (a + dirMemberLen + 1) == 46)
    && b (a + dirMemberLen) == 46

/-- The name becomes the dots; also whether it did. -/
def clobberDots (w : Walk) (b : Buf) (a dots : Nat) : Buf × Bool :=
  if direntHasDots b a dots = false ∧ w.answer .notDotty a = true then
    (setFileType (writeBytes (setNameLen b a dots) (a + dirMemberLen) (List.replicate dots 46)) a
      ftDir, true)
  else (b, false)

/-- What is behind the name of the entry becomes an entry, whose length is made from the bytes
    that are there. -/
def splitExcess (w : Walk) (b : Buf) (a : Nat) (changedLen : Bool) : Option Buf :=
  let next := a + dirRecLen (nameLen b a)
  if dirRecLen (nameLen b a) ≠ recLen b a ∧ (changedLen = true ∨ w.answer .dotExcess a = true) then
    if w.blocksize < next + 11 then none
    else
      let b := setNameLen (setInode (setRecLen b a (dirRecLen (nameLen b a))) next 0) next 0
      some (setRecLen b next (dirRecLen (recLen b next)))
  else some b

/-- `fix_dirent_dots`; the inode of `..` is only recorded. -/
def fixDirentDots (w : Walk) (b : Buf) (a : Nat) : Option Buf :=
  let dots := expectedDots w a
  if dots = 0 ∧ (inode b a = 0 ∨ direntHasDots b a 1 = false ∧ direntHasDots b a 2 = false) then
    some b
  else if dots = 0 ∧ w.answer .dottyDup a = true then some (setInode b a 0)
  else
    let (b, changedLen) := clobberDots w b a dots
    if dots = 2 then some b
    else
      let b := if inode b a ≠ w.ino ∧ w.answer .dotInode a = true then setInode b a w.ino else b
      splitExcess w b a changedLen

/-- `fix_dirent_name`: the slashes and NULs the name starts with. -/
def fixDirentName (w : Walk) (b : Buf) (a : Nat) : Buf :=
  let b := if nameLen b a = 0 ∧ w.answer .zeroName a = true then setInode b a 0 else b
  let bad := (direntName b a).takeWhile fun c => c == 47 || c == 0
  if w.answer .nameChars a = true then
    writeBytes b (a + dirMemberLen) (List.replicate bad.length 46)
  else b

/-- `fix_dirent_inode`. -/
def fixDirentInode (w : Walk) (b : Buf) (a : Nat) : Buf :=
  if w.outOfRange (inode b a) = true ∧ w.answer .inodeRange a = true then setInode b a 0
  else if w.allocated (inode b a) = false ∧ w.answer .inodeFree a = true then setInode b a 0
  else b

/-- `fix_dirent_filetype`. -/
def fixDirentFiletype (w : Walk) (b : Buf) (a : Nat) : Buf :=
  if fileType b a ≠ w.expectedType (inode b a) ∧ w.answer .type a = true then
    setFileType b a (w.expectedType (inode b a))
  else b

/-- `fix_dirent_linkage`. -/
def fixDirentLinkage (w : Walk) (parents : List Nat) (b : Buf) (a : Nat) : List Nat × Buf :=
  if expectedDots w a ≠ 0 ∨ w.isDir (inode b a) = false then (parents, b)
  else if inode b a ∉ parents then (inode b a :: parents, b)
  else if w.answer .parentDup a = true then (parents, setInode b a 0)
  else (parents, b)

/-- `fix_dirent_dups` with the answer, on a buffer of `blocksize` bytes. -/
def fixDirentDup (w : Walk) (names : List (List UInt8)) (b : Buf) (a : Nat) :
    Option (List (List UInt8) × Buf) :=
  if nameExists names b a ∧ w.answer .duplicate a = false then
    some (keptStrings names, b)
  else
    let r := fixDirentDups names b a
    if w.blocksize < a + dirMemberLen + nameLen r.2 a then none else some r

/-- The checks of an entry in use, until one of them deletes it. `fix_dirent_filetype` deletes
    none, so the test behind it is not here. -/
def checkUsed (w : Walk) (seen : Seen) (b : Buf) (a : Nat) : Option (Seen × Buf) :=
  let b := fixDirentName w b a
  if inode b a = 0 then some (seen, b)
  else
    let b := fixDirentInode w b a
    if inode b a = 0 then some (seen, b)
    else
      let b := fixDirentFiletype w b a
      let (parents, b) := fixDirentLinkage w seen.parents b a
      if inode b a = 0 then some (⟨seen.names, parents⟩, b)
      else (fixDirentDup w seen.names b a).map fun (names, b) => (⟨names, parents⟩, b)

/-- All the checks other than that of the lengths. -/
def checkDirent (w : Walk) (seen : Seen) (b : Buf) (a : Nat) : Option (Seen × Buf) :=
  match fixDirentDots w b a with
  | none => none
  | some b => if inode b a = 0 then some (seen, b) else checkUsed w seen b a

/-! ### The loop -/

/-- What the part behind the label `next` leaves: the block, where the entry is now, and
    `write_off`. -/
def placeDirent (compressDirs : Bool) (b : Buf) (offset : Nat) (prev : Option Nat)
    (writeOff : Nat) : Buf × Nat × Nat :=
  if compressDirs = false then (b, offset, writeOff)
  else
    let savedReclen := recLen b offset
    let (b, writeOff) :=
      match prev with
      | some p =>
        if inode b p ≠ 0 then
          let b := setRecLen b p (dirRecLen (nameLen b p))
          (b, writeOff + recLen b p)
        else (b, writeOff)
      | none => (b, writeOff)
    if writeOff < offset then
      let b := moveBytes b writeOff offset (dirRecLen (nameLen b offset))
      (setRecLen b writeOff (savedReclen + offset - writeOff), writeOff, writeOff)
    else (b, offset, writeOff)

/-- The loop of `pass2_dir_block_iterate`, with at most `fuel` turns. -/
def direntLoop (w : Walk) : Nat → Seen → Buf → Nat → Option Nat → Nat → Option (Seen × Buf)
  | 0, _, _, _, _, _ => none
  | fuel + 1, seen, b, offset, prev, writeOff =>
    if w.stop ≤ offset then some (seen, b)
    else if corruptDirentLengths b offset (w.stop - offset) then
      -- the entry is edited in place and parsed again
      match fixDirentLengths w.blocksize b offset (w.stop - offset) with
      | none => none
      | some b => direntLoop w fuel seen b offset prev writeOff
    else
      match checkDirent w seen b offset with
      | none => none
      | some (seen, b) =>
        let savedReclen := recLen b offset
        let (b, dirent, writeOff) := placeDirent w.compressDirs b offset prev writeOff
        direntLoop w fuel seen b (offset + savedReclen) (some dirent) writeOff

end Ocfs2Tools.Pass2
