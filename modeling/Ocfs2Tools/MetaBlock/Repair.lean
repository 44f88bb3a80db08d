import Ocfs2Tools.MetaBlock.Model
import Ocfs2Tools.BlockCheck.Validate

/-!
# Reading back a block with a flipped bit

On a file system with `metaecc` a block that was written and then had one bit flipped
on disk is read back as it was written by every read function except
`ocfs2_read_inode`, which hands out the copy it made before the repair.
-/

namespace Ocfs2Tools.MetaBlock

open List Prog BlockCheck Bitops

variable {bc : Nat}

/-! ### What the check field leaves alone -/

section

variable {bc off n : Nat} {data field : List UInt8}

theorem take_putCheck (hbc : bc + 8 ≤ data.length) (hn : n ≤ bc) :
    (putCheck bc field data).take n = data.take n := by
  rw [putCheck, append_assoc, take_append_of_le_length, take_take, min_eq_left hn]
  rw [length_take]
  omega

variable (hbc : bc + 8 ≤ data.length) (hf : field.length = 8) (hoff : bc + 8 ≤ off)

include hbc hf hoff

theorem drop_putCheck_of_le : (putCheck bc field data).drop off = data.drop off := by
  obtain ⟨d, rfl⟩ : ∃ d, off = bc + 8 + d := ⟨off - (bc + 8), by omega⟩
  have hfield : (field ++ data.drop (bc + 8)).drop 8 = data.drop (bc + 8) := by
    rw [drop_append_of_le_length (by omega), drop_of_length_le (by omega), nil_append]
  rw [← drop_drop, ← drop_drop, drop_putCheck hbc, hfield, drop_drop]

theorem le16At_putCheck : le16At (putCheck bc field data) off = le16At data off := by
  rw [le16At, drop_putCheck_of_le hbc hf hoff, le16At]

theorem le32At_putCheck : le32At (putCheck bc field data) off = le32At data off := by
  rw [le32At, drop_putCheck_of_le hbc hf hoff, le32At]

end

variable {k : Kind} {fs : MetaFs} {addr blkno i : Nat} {s t u : MetaSt} {blk good : List UInt8}

theorem Kind.check_bounds (k : Kind) : 8 ≤ k.check ∧ k.check + 8 ≤ 512 := by
  cases k <;> decide

theorem Kind.Valid.putCheck {field : List UInt8} (h : k.Valid blk)
    (hbc : k.check + 8 ≤ blk.length) (hf : field.length = 8) :
    k.Valid (putCheck k.check field blk) := by
  constructor
  · have hlen : k.signature.length ≤ k.check := by cases k <;> decide
    rw [hasSignature, take_putCheck hbc hlen]
    exact h.signature
  · have hlist := h.list
    cases k with
    | inode => rfl
    | extentBlock =>
      rw [Kind.overflows, ebOverflows] at *
      rwa [le16At_putCheck hbc hf (by decide), le16At_putCheck hbc hf (by decide)]
    | groupDesc => rfl
    | refcountBlock =>
      rw [Kind.overflows, rbOverflows] at *
      rwa [le32At_putCheck hbc hf (by decide), le16At_putCheck hbc hf (by decide),
        le16At_putCheck hbc hf (by decide), le16At_putCheck hbc hf (by decide)]
    | xattrBlock => rfl

/-! ### What is written -/

theorem Kind.write_eq (k : Kind) (fs : MetaFs) (addr blkno : Nat) :
    k.write fs addr blkno = writeMeta fs addr k.check blkno := by
  cases k <;> rfl

theorem checkBlkno_ok {r : Except MetaError Unit} (h : checkBlkno fs blkno s = some (r, t))
    (hr : r = .ok ()) : ¬ (blkno < superBlockBlkno ∨ fs.fsBlocks < blkno) := by
  subst hr
  intro hout
  rw [checkBlkno, if_pos hout] at h
  cases h

theorem checkBlkno_run (h : ¬ (blkno < superBlockBlkno ∨ fs.fsBlocks < blkno)) (s : MetaSt) :
    checkBlkno fs blkno s = some (.ok (), s) := by
  rw [checkBlkno, if_neg h]
  rfl

theorem Kind.write_ok (hecc : fs.metaEcc = true) (h : k.write fs addr blkno s = some (.ok (), t)) :
    ¬ (blkno < superBlockBlkno ∨ fs.fsBlocks < blkno) ∧
      ∃ blk, blockCheckCompute addr k.check s.buf = some blk ∧ t.dev blkno = some blk := by
  rw [k.write_eq, writeMeta] at h
  split at h
  · cases h
  obtain ⟨_, s1, hcheck, h⟩ := bind_eq_ok h
  have hrange := checkBlkno_ok hcheck rfl
  rw [checkBlkno_run hrange] at hcheck
  cases hcheck
  obtain ⟨_, _, hget, h⟩ := bind_eq_ok h
  cases hget
  obtain ⟨blk, s2, hcompute, h⟩ := bind_eq_ok h
  rw [computeMetaEcc, if_pos hecc] at hcompute
  refine ⟨hrange, blk, ?_, ?_⟩
  · cases hc : blockCheckCompute addr k.check s.buf with
    | none =>
      rw [hc] at hcompute
      cases hcompute
    | some b =>
      rw [hc] at hcompute
      cases hcompute
      rfl
  · cases h
    exact if_pos rfl

/-! ### What is read -/

theorem readInode_ok (hdev : s.dev blkno = some blk)
    (h : readInode fs addr blkno s = some (.ok (), u)) : u.buf = blk := by
  obtain ⟨_, s1, hcheck, h⟩ := bind_eq_ok h
  rw [checkBlkno_run (checkBlkno_ok hcheck rfl)] at hcheck
  cases hcheck
  obtain ⟨b, s2, hread, h⟩ := bind_eq_ok h
  rw [readBlock, hdev] at hread
  cases hread
  split at h
  · cases h
  obtain ⟨_, s3, hcopy, h⟩ := bind_eq_ok h
  cases hcopy
  obtain ⟨b', s4, hval, h⟩ := bind_eq_ok h
  cases h
  rw [validateMetaEcc] at hval
  split at hval
  · split at hval
    · cases hval
    · cases hval
      rfl
    · cases hval
  · cases hval
    rfl

theorem validateMetaEcc_off (hoff : fs.noEccChecks = true) :
    validateMetaEcc fs addr bc blk s = some (.ok blk, s) := by
  rw [validateMetaEcc, hoff, Bool.not_true, Bool.and_false]
  rfl

theorem readThenCheck_run {m : MetaIo Unit} {magic : MetaError} {sig : Bool}
    (exceeds : List UInt8 → Bool)
    (hm : m s = if !sig then some (.error magic, s) else some (.ok (), { s with buf := good })) :
    (do
      m
      let s ← Prog.get
      if exceeds s.buf then fail .corruptExtentBlock else pure () : MetaIo Unit) s =
      if !sig then some (.error magic, s)
      else if exceeds good then some (.error .corruptExtentBlock, { s with buf := good })
      else some (.ok (), { s with buf := good }) := by
  cases sig with
  | false => exact bind_error hm _
  | true =>
    refine (bind_ok hm _).trans ?_
    show (if exceeds good then fail .corruptExtentBlock else pure () : MetaIo Unit) _ = _
    cases exceeds good <;> rfl

section Read

variable (hrange : ¬ (blkno < superBlockBlkno ∨ fs.fsBlocks < blkno))
  (hdev : s.dev blkno = some blk)

include hrange hdev

theorem readInode_run (hsig : hasSignature (ascii "INODE01") blk = true)
    (hval : ∀ s, validateMetaEcc fs addr 0x80 blk s = some (.ok good, s)) :
    readInode fs addr blkno s = some (.ok (), { s with buf := blk }) := by
  have hread : readBlock blkno s = some (.ok blk, s) := by rw [readBlock, hdev]
  rw [readInode, bind_ok (checkBlkno_run hrange s), bind_ok hread, hsig]
  exact bind_ok (hval _) _

theorem readMeta_run (sig : List UInt8) (magic : MetaError)
    (hval : validateMetaEcc fs addr bc blk s = some (.ok good, s)) :
    readMeta fs addr bc sig magic blkno s =
      if !hasSignature sig good then some (.error magic, s)
      else some (.ok (), { s with buf := good }) := by
  have hread : readBlock blkno s = some (.ok blk, s) := by rw [readBlock, hdev]
  rw [readMeta, bind_ok (checkBlkno_run hrange s), bind_ok hread, bind_ok hval]
  split <;> rfl

variable (hval : validateMetaEcc fs addr k.check blk s = some (.ok good, s)) (hk : k ≠ .inode)

include hval hk

theorem Kind.read_run : ∃ magic, k.read fs addr blkno s =
      if !hasSignature k.signature good then some (.error magic, s)
      else if k.overflows good then some (.error .corruptExtentBlock, { s with buf := good })
      else some (.ok (), { s with buf := good }) := by
  have hrun := fun magic => readMeta_run hrange hdev k.signature magic hval
  cases k with
  | inode => exact absurd rfl hk
  | extentBlock => exact ⟨_, readThenCheck_run ebOverflows (hrun .badExtentBlockMagic)⟩
  | groupDesc => exact ⟨_, hrun .badGroupDescMagic⟩
  | refcountBlock => exact ⟨_, readThenCheck_run rbOverflows (hrun .badExtentBlockMagic)⟩
  | xattrBlock => exact ⟨_, hrun .badXattrBlockMagic⟩

theorem Kind.read_valid (hgood : k.Valid good) :
    k.read fs addr blkno s = some (.ok (), { s with buf := good }) := by
  obtain ⟨magic, hrun⟩ := Kind.read_run hrange hdev hval hk
  rw [hrun, hgood.signature, hgood.list]
  rfl

theorem Kind.read_ok (h : k.read fs addr blkno s = some (.ok (), u)) : u.buf = good := by
  obtain ⟨magic, hrun⟩ := Kind.read_run hrange hdev hval hk
  rw [hrun] at h
  split at h
  · cases h
  · split at h
    · cases h
    · cases h
      rfl

end Read

/-! ### A flipped bit -/

def MetaSt.flip (s : MetaSt) (blkno i : Nat) : MetaSt :=
  { s with dev := fun b => if b = blkno then (s.dev b).map (flipBit i) else s.dev b }

theorem MetaSt.flip_dev (h : t.dev blkno = some blk) :
    (t.flip blkno i).dev blkno = some (flipBit i blk) := by
  rw [MetaSt.flip]
  simp only [if_true, h, Option.map_some]

theorem flipBit_ne (hi : i < 8 * blk.length) : flipBit i blk ≠ blk := by
  intro h
  have hbit := testBit_flipBit hi i
  rw [h, decide_eq_true rfl] at hbit
  cases hb : testBit i blk <;> simp [hb] at hbit

theorem zeroed_of_blocksize {data : List UInt8} (hlen : data.length = fs.fsBlocksize)
    (hbc : bc + 8 ≤ 512) : Zeroed bc (zeroCheck bc data) := by
  have hge := fs.fsBlocksize_ge
  have hle : fs.fsBlocksize ≤ 4096 :=
    Nat.pow_le_pow_right (by decide) fs.blocksize_le
  apply zeroed_of_fits (by omega)
  have := parityBits_le (show data.length * 8 - 1 < 2 ^ 31 by omega)
  omega

/-- What is on the device after a valid block was written: a valid block of which any
    flipped bit is put right by validating it. -/
theorem Kind.write_sealed (hecc : fs.metaEcc = true) (hvalid : k.Valid s.buf)
    (hlen : s.buf.length = fs.fsBlocksize) (hwrite : k.write fs addr blkno s = some (.ok (), t)) :
    ∃ blk, t.dev blkno = some blk ∧ k.Valid blk ∧ blk.length = fs.fsBlocksize ∧
      ∀ addr' i, i < 8 * fs.fsBlocksize → Outside k.check i →
        blockCheckValidate addr' k.check (flipBit i blk) = some (.ok (), blk) := by
  obtain ⟨-, blk, hcompute, hblk⟩ := Kind.write_ok hecc hwrite
  have hbounds := k.check_bounds
  have hge := fs.fsBlocksize_ge
  have hbc : k.check + 8 ≤ s.buf.length := by omega
  have hz : Zeroed k.check (zeroCheck k.check s.buf) := zeroed_of_blocksize hlen hbounds.2
  have hzlen : (zeroCheck k.check s.buf).length = s.buf.length := length_putCheck hbc (by simp)
  have hbc' : k.check + 8 ≤ (zeroCheck k.check s.buf).length := by omega
  rw [hz.compute] at hcompute
  cases hcompute
  refine ⟨_, hblk, (hvalid.putCheck hbc (by simp)).putCheck hbc' (by simp), ?_, ?_⟩
  · rw [sealed, length_putCheck hbc' (by simp), hzlen, hlen]
  · intro addr' i hi hout
    exact hz.validate_flip (by omega) hout

/-- For a valid block that was written on a file system with `metaecc`, and any bit of it
    outside the check field flipped on disk: the read function returns the block as it
    was written exactly if the block is not an inode and checking is not switched off. -/
theorem Kind.read_flip_iff (k : Kind) (fs : MetaFs) (hecc : fs.metaEcc = true) (addr addr' : Nat)
    (blkno : Nat) (s t : MetaSt) (buf : List UInt8) (hvalid : k.Valid s.buf)
    (hlen : s.buf.length = fs.fsBlocksize) (hwrite : k.write fs addr blkno s = some (.ok (), t))
    (i : Nat) (hi : i < 8 * fs.fsBlocksize) (hout : Outside k.check i) :
    (∃ u, k.read fs addr' blkno { t.flip blkno i with buf := buf } = some (.ok (), u) ∧
      t.dev blkno = some u.buf) ↔ k ≠ .inode ∧ fs.noEccChecks = false := by
  obtain ⟨hrange, -⟩ := Kind.write_ok hecc hwrite
  obtain ⟨blk, hblk, hgood, hblen, hflip⟩ := Kind.write_sealed hecc hvalid hlen hwrite
  have hdev : { t.flip blkno i with buf := buf }.dev blkno = some (flipBit i blk) :=
    MetaSt.flip_dev hblk
  have hne : flipBit i blk ≠ blk := flipBit_ne (by omega)
  rw [hblk]
  constructor
  · rintro ⟨u, hread, hu⟩
    have hu := Option.some.inj hu
    by_cases hk : k = .inode
    · subst hk
      exact absurd ((readInode_ok hdev hread).symm.trans hu.symm) hne
    · refine ⟨hk, ?_⟩
      by_contra hno
      have hval : validateMetaEcc fs addr' k.check (flipBit i blk)
          { t.flip blkno i with buf := buf } =
          some (.ok (flipBit i blk), { t.flip blkno i with buf := buf }) :=
        validateMetaEcc_off (Bool.not_eq_false _ ▸ hno)
      exact hne ((Kind.read_ok hrange hdev hval hk hread).symm.trans hu.symm)
  · rintro ⟨hk, hno⟩
    have hval : validateMetaEcc fs addr' k.check (flipBit i blk)
        { t.flip blkno i with buf := buf } =
        some (.ok blk, { t.flip blkno i with buf := buf }) := by
      rw [validateMetaEcc, if_pos (by simp [hecc, hno]), hflip addr' i hi hout]
    exact ⟨_, Kind.read_valid hrange hdev hval hk hgood, rfl⟩

/-! ### An inode with a flipped bit -/

/-- A file system of 16 blocks of 512 bytes with `metaecc`. -/
def sampleFs : MetaFs where
  toFilesys := .smallBlocks 16
  metaEcc := true
  rw := true
  noEccChecks := false

/-- An empty device and a buffer with a signature and zeros. -/
def sampleSt (sig : String) : MetaSt where
  dev := fun _ => none
  buf := ascii sig ++ List.replicate 505 0

theorem sampleSt_length {sig : String} (h : (ascii sig).length = 7) :
    (sampleSt sig).buf.length = sampleFs.fsBlocksize := by
  rw [sampleSt, length_append, h, length_replicate]
  rfl

theorem Kind.write_run (k : Kind) (addr : Nat) (hlen : s.buf.length = fs.fsBlocksize)
    (hrw : fs.rw = true)
    (hecc : fs.metaEcc = true) (hrange : ¬ (blkno < superBlockBlkno ∨ fs.fsBlocks < blkno)) :
    ∃ t, k.write fs addr blkno s = some (.ok (), t) := by
  have hz : Zeroed k.check (zeroCheck k.check s.buf) := zeroed_of_blocksize hlen k.check_bounds.2
  have hblk : computeMetaEcc fs addr k.check s.buf s =
      some (.ok (sealed k.check (zeroCheck k.check s.buf)), s) := by
    rw [computeMetaEcc, if_pos hecc, hz.compute]
  rw [k.write_eq, writeMeta, hrw]
  exact ⟨_, (bind_ok (checkBlkno_run hrange s) _).trans
    ((bind_ok (get_run s) _).trans (bind_ok hblk _))⟩

theorem take_flipBit {n : Nat} (hn : n ≤ i / 8) : (flipBit i blk).take n = blk.take n := by
  apply ext_getElem?
  intro k
  by_cases hk : k < n
  · rw [getElem?_take_of_lt hk, getElem?_take_of_lt hk, flipBit]
    have hne : i / 8 ≠ k := by omega
    simp [hne]
  · rw [getElem?_eq_none (by rw [length_take]; omega),
      getElem?_eq_none (by rw [length_take]; omega)]

/-- An inode is written and a bit in its middle flips: the inode is read without an
    error and is not the one that was written. -/
theorem readInode_flipped : ∃ t u, Kind.inode.write sampleFs 0 5 (sampleSt "INODE01") =
      some (.ok (), t) ∧
    Kind.inode.read sampleFs 0 5 (t.flip 5 2048) = some (.ok (), u) ∧ t.dev 5 ≠ some u.buf := by
  have hlen : (sampleSt "INODE01").buf.length = sampleFs.fsBlocksize := sampleSt_length rfl
  have hvalid : Kind.inode.Valid (sampleSt "INODE01").buf := ⟨by decide, rfl⟩
  have hrange : ¬ (5 < superBlockBlkno ∨ sampleFs.fsBlocks < 5) := by decide
  obtain ⟨t, hwrite⟩ := Kind.inode.write_run 0 hlen rfl rfl hrange
  obtain ⟨blk, hblk, hgood, hblen, hflip⟩ := Kind.write_sealed rfl hvalid hlen hwrite
  have hdev := MetaSt.flip_dev (i := 2048) hblk
  have hsig : hasSignature (ascii "INODE01") (flipBit 2048 blk) = true := by
    rw [hasSignature, take_flipBit (by decide)]
    exact hgood.signature
  have hval : ∀ s, validateMetaEcc sampleFs 0 0x80 (flipBit 2048 blk) s = some (.ok blk, s) := by
    intro s
    have hfix : blockCheckValidate 0 0x80 (flipBit 2048 blk) = some (.ok (), blk) :=
      hflip 0 2048 (by decide) (.inr (by decide))
    rw [validateMetaEcc, if_pos (by decide), hfix]
  refine ⟨t, _, hwrite, readInode_run hrange hdev hsig hval, ?_⟩
  rw [hblk]
  intro h
  exact flipBit_ne (by rw [hblen]; decide) (Option.some.inj h).symm

/-- An extent block with a flipped bit of its signature is read as it was written. -/
theorem readExtentBlock_flipped : ∃ t u,
    Kind.extentBlock.write sampleFs 0 5 (sampleSt "EXBLK01") = some (.ok (), t) ∧
    Kind.extentBlock.read sampleFs 0 5 { t.flip 5 3 with buf := [] } = some (.ok (), u) ∧
      t.dev 5 = some u.buf := by
  have hlen : (sampleSt "EXBLK01").buf.length = sampleFs.fsBlocksize := sampleSt_length rfl
  obtain ⟨t, hwrite⟩ := Kind.extentBlock.write_run 0 hlen rfl rfl
    (show ¬ (5 < superBlockBlkno ∨ sampleFs.fsBlocks < 5) by decide)
  have hvalid : Kind.extentBlock.Valid (sampleSt "EXBLK01").buf := ⟨by decide, by decide⟩
  obtain ⟨u, hread, hu⟩ := (Kind.read_flip_iff .extentBlock sampleFs rfl 0 0 5 _ t [] hvalid hlen
    hwrite 3 (by decide) (.inl (by decide))).mpr ⟨by decide, rfl⟩
  exact ⟨t, u, hwrite, hread, hu⟩

end Ocfs2Tools.MetaBlock
