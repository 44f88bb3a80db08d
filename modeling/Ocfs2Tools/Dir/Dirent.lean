import Ocfs2Tools.Lib.Bytes

/-!
# Directory entries in a block

A directory block is a store of bytes, and `struct ocfs2_dir_entry` at an offset of it has
the inode number in its first 8 bytes, then `rec_len`, `name_len` and `file_type`, and from
byte 12 on the name. The accessors read and write the fields in place.
-/

namespace Ocfs2Tools.Dir

variable {v x : Nat}

/-- The bytes of a block, by offset. -/
abbrev Buf : Type := Nat → UInt8

/-- `OCFS2_DIR_MEMBER_LEN`: the offset of the name. -/
def dirMemberLen : Nat := 12

/-- `OCFS2_DIR_REC_LEN`: a name and the members before it, rounded up to 4 bytes. -/
def dirRecLen (nameLen : Nat) : Nat := (nameLen + 15) / 4 * 4

def ftUnknown : Nat := 0

def ftDir : Nat := 2

variable {b b' : Buf} {a : Nat}

/-! ### Fields -/

def inode (b : Buf) (a : Nat) : Nat := leNat (bytesAt b a 8)

def recLen (b : Buf) (a : Nat) : Nat := (b (a + 8)).toNat + 256 * (b (a + 9)).toNat

def nameLen (b : Buf) (a : Nat) : Nat := (b (a + 10)).toNat

def fileType (b : Buf) (a : Nat) : Nat := (b (a + 11)).toNat

/-- The entry at `a`, apart from its length: inode, type and name. -/
def ident (b : Buf) (a : Nat) : Nat × Nat × List UInt8 :=
  (inode b a, fileType b a, bytesAt b (a + dirMemberLen) (nameLen b a))

def setInode (b : Buf) (a v : Nat) : Buf := writeBytes b a (leBytes 8 v)

def setRecLen (b : Buf) (a v : Nat) : Buf := writeBytes b (a + 8) (leBytes 2 v)

def setNameLen (b : Buf) (a v : Nat) : Buf := writeBytes b (a + 10) (leBytes 1 v)

def setFileType (b : Buf) (a v : Nat) : Buf := writeBytes b (a + 11) (leBytes 1 v)

theorem recLen_lt (b : Buf) (a : Nat) : recLen b a < 65536 := by
  have h1 := (b (a + 8)).toNat_lt
  have h2 := (b (a + 9)).toNat_lt
  unfold recLen
  omega

theorem nameLen_lt (b : Buf) (a : Nat) : nameLen b a < 256 := (b (a + 10)).toNat_lt

/-- The buffers agree on the `n` bytes from `a` on. -/
def SameFor (b b' : Buf) (a n : Nat) : Prop := ∀ x, a ≤ x → x < a + n → b' x = b x

theorem recLen_congr (h : SameFor b b' a 12) : recLen b' a = recLen b a := by
  rw [recLen, recLen, h (a + 8) (by omega) (by omega), h (a + 9) (by omega) (by omega)]

theorem nameLen_congr (h : SameFor b b' a 12) : nameLen b' a = nameLen b a := by
  rw [nameLen, nameLen, h (a + 10) (by omega) (by omega)]

theorem inode_congr (h : SameFor b b' a 12) : inode b' a = inode b a := by
  rw [inode, inode, bytesAt_congr fun x h1 h2 => h x h1 (by omega)]

/-! ### Writing fields -/

theorem setInode_outside (h : x < a ∨ a + 8 ≤ x) : setInode b a v x = b x :=
  writeBytes_outside h

theorem setRecLen_outside (h : x < a + 8 ∨ a + 10 ≤ x) : setRecLen b a v x = b x :=
  writeBytes_outside h

theorem setNameLen_outside (h : x < a + 10 ∨ a + 11 ≤ x) : setNameLen b a v x = b x :=
  writeBytes_outside h

theorem setFileType_outside (h : x < a + 11 ∨ a + 12 ≤ x) : setFileType b a v x = b x :=
  writeBytes_outside h

theorem recLen_setRecLen (h : v < 65536) : recLen (setRecLen b a v) a = v := by
  have h0 : setRecLen b a v (a + 8 + 0) = UInt8.ofNat v :=
    writeBytes_inside (by simp)
  have h1 : setRecLen b a v (a + 8 + 1) = UInt8.ofNat (v / 256) :=
    writeBytes_inside (by simp)
  rw [recLen, h0, h1, UInt8.toNat_ofNat', UInt8.toNat_ofNat']
  omega

theorem nameLen_setNameLen_mod (b : Buf) (a v : Nat) : nameLen (setNameLen b a v) a = v % 256 := by
  have h0 : setNameLen b a v (a + 10 + 0) = UInt8.ofNat v :=
    writeBytes_inside (by simp)
  rw [nameLen, h0, UInt8.toNat_ofNat']

theorem nameLen_setNameLen (h : v < 256) : nameLen (setNameLen b a v) a = v := by
  rw [nameLen_setNameLen_mod, Nat.mod_eq_of_lt h]

@[simp] theorem nameLen_setRecLen (b : Buf) (a v : Nat) :
    nameLen (setRecLen b a v) a = nameLen b a := by
  rw [nameLen, setRecLen_outside (by omega), nameLen]

@[simp] theorem inode_setRecLen (b : Buf) (a v : Nat) : inode (setRecLen b a v) a = inode b a := by
  rw [inode, inode, bytesAt_congr fun x h1 h2 => setRecLen_outside (by omega)]

@[simp] theorem recLen_setNameLen (b : Buf) (a v : Nat) :
    recLen (setNameLen b a v) a = recLen b a := by
  rw [recLen, setNameLen_outside (by omega), setNameLen_outside (by omega), recLen]

@[simp] theorem recLen_setInode (b : Buf) (a v : Nat) : recLen (setInode b a v) a = recLen b a := by
  rw [recLen, setInode_outside (by omega), setInode_outside (by omega), recLen]

@[simp] theorem nameLen_setInode (b : Buf) (a v : Nat) :
    nameLen (setInode b a v) a = nameLen b a := by
  rw [nameLen, setInode_outside (by omega), nameLen]

@[simp] theorem recLen_setFileType (b : Buf) (a v : Nat) :
    recLen (setFileType b a v) a = recLen b a := by
  rw [recLen, setFileType_outside (by omega), setFileType_outside (by omega), recLen]

@[simp] theorem nameLen_setFileType (b : Buf) (a v : Nat) :
    nameLen (setFileType b a v) a = nameLen b a := by
  rw [nameLen, setFileType_outside (by omega), nameLen]

/-! ### Blocks that differ before an entry -/

section Splice

variable {low : Buf} {p : Nat} (h : a ≤ p)

include h

theorem inode_splice : inode (splice low b a) p = inode b p := by
  rw [inode, bytesAt_splice h, inode]

theorem recLen_splice : recLen (splice low b a) p = recLen b p := by
  rw [recLen, splice_of_le (by omega), splice_of_le (by omega), recLen]

theorem nameLen_splice : nameLen (splice low b a) p = nameLen b p := by
  rw [nameLen, splice_of_le (by omega), nameLen]

theorem fileType_splice : fileType (splice low b a) p = fileType b p := by
  rw [fileType, splice_of_le (by omega), fileType]

theorem setInode_splice : setInode (splice low b a) p v = splice low (setInode b p v) a :=
  writeBytes_splice h

theorem setRecLen_splice : setRecLen (splice low b a) p v = splice low (setRecLen b p v) a :=
  writeBytes_splice (by omega)

theorem setNameLen_splice : setNameLen (splice low b a) p v = splice low (setNameLen b p v) a :=
  writeBytes_splice (by omega)

theorem setFileType_splice : setFileType (splice low b a) p v = splice low (setFileType b p v) a :=
  writeBytes_splice (by omega)

end Splice

/-! ### Chains of entries -/

/-- The lengths of the entry at `a` are in order: a multiple of 4, at least the shortest
    record, and room for the name. -/
structure EntryOk (b : Buf) (a : Nat) : Prop where
  aligned : recLen b a % 4 = 0
  min : dirRecLen 1 ≤ recLen b a
  name : dirRecLen (nameLen b a) ≤ recLen b a

/-- The entries from `a` on, one behind the other, end at `stop`. -/
inductive Tiled (b : Buf) (stop : Nat) : Nat → Prop where
  | nil : Tiled b stop stop
  | cons (a : Nat) (ok : EntryOk b a) (rest : Tiled b stop (a + recLen b a)) : Tiled b stop a

theorem EntryOk.congr (h : EntryOk b a) (hb : SameFor b b' a 12) : EntryOk b' a := by
  refine ⟨?_, ?_, ?_⟩
  · rw [recLen_congr hb]
    exact h.aligned
  · rw [recLen_congr hb]
    exact h.min
  · rw [recLen_congr hb, nameLen_congr hb]
    exact h.name

theorem Tiled.le {stop : Nat} (h : Tiled b stop a) : a ≤ stop := by
  induction h with
  | nil => exact Nat.le_refl _
  | cons a ok rest ih => omega

theorem Tiled.eq_or_le {stop : Nat} (h : Tiled b stop a) : a = stop ∨ a + 16 ≤ stop := by
  cases h with
  | nil => exact .inl rfl
  | cons _ ok rest =>
    have hmin : 16 ≤ recLen b a := ok.min
    have := rest.le
    omega

theorem Tiled.congr {stop : Nat} (h : Tiled b stop a)
    (hb : ∀ x, a ≤ x → x < stop → b' x = b x) : Tiled b' stop a := by
  induction h with
  | nil => exact .nil
  | cons a ok rest ih =>
    have hle := rest.le
    have hmin : 16 ≤ recLen b a := ok.min
    have hhead : SameFor b b' a 12 := fun x h1 h2 => hb x h1 (by omega)
    refine .cons a (ok.congr hhead) ?_
    rw [recLen_congr hhead]
    exact ih fun x h1 h2 => hb x (by omega) h2

theorem Tiled.snoc {p : Nat} (h : Tiled b p a) (ok : EntryOk b p) : Tiled b (p + recLen b p) a := by
  induction h with
  | nil => exact .cons p ok .nil
  | cons a ok' rest ih => exact .cons a ok' ih

end Ocfs2Tools.Dir
