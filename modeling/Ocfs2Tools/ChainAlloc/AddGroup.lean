import Ocfs2Tools.Device

/-!
# Adding a group to an allocator

`ocfs2_chain_add_group` takes the clusters of a group, writes its descriptor, counts the group
in the allocator's inode, writes the inode and loads the group. When one of these fails, the
exit computes the counts the other way round. It does that from the moment on at which the
chain is known, and so also when nothing was counted yet.
-/

namespace Ocfs2Tools.AddGroup

open Function

/-- `struct ocfs2_chain_rec`. -/
structure ChainRec where
  cFree : Nat
  cTotal : Nat
  cBlkno : Nat

/-- The allocator's inode: its chain list and its counts. -/
structure Inode where
  clCpg : Nat
  clBpc : Nat
  clCount : Nat
  clNextFreeRec : Nat
  clRecs : Nat → ChainRec
  iClusters : Nat
  iSize : Nat
  iTotal : Nat
  iUsed : Nat

/-- What the calls return. `ocfs2_new_clusters` returns the first cluster and their number, and
    with an error the block it may have set before. `writeCachedInode` is the write before the
    group is loaded: the one at the exit is not checked. -/
structure Env where
  fs : Filesys
  mallocBlock : Option Errcode
  newClusters : Except (Errcode × Nat) (Nat × Nat)
  writeGroupDesc : Option Errcode
  writeCachedInode : Option Errcode
  processGroup : Option Errcode
  freeClusters : Option Errcode

/-- The inode, and the clusters of the volume that are in use. -/
structure St where
  inode : Inode
  used : Nat → Bool

def Inode.chainNum (i : Inode) : Nat :=
  if i.clNextFreeRec < i.clCount then i.clNextFreeRec else i.iClusters / i.clCpg % i.clCount

/-- `bg_bits` of `ocfs2_init_group_desc`. -/
def Inode.bgBits (i : Inode) : Nat := i.clCpg * i.clBpc % 2 ^ 16

/-- `bg_free_bits_count`: the descriptor has the first bit. -/
def Inode.bgFreeBitsCount (i : Inode) : Nat := subW 16 i.bgBits 1

def addCounts (fs : Filesys) (blkno : Nat) (i : Inode) : Inode :=
  let r := i.clRecs i.chainNum
  { i with
    clRecs := update i.clRecs i.chainNum
      ⟨addW 32 r.cFree i.bgFreeBitsCount, addW 32 r.cTotal i.bgBits, blkno⟩
    iClusters := addW 32 i.iClusters i.clCpg
    iSize := addW 32 i.iClusters i.clCpg * fs.fsClustersize
    iTotal := addW 32 i.iTotal i.bgBits
    iUsed := addW 32 i.iUsed (subW 32 i.bgBits i.bgFreeBitsCount)
    clNextFreeRec := if i.clNextFreeRec = i.chainNum then i.chainNum + 1 else i.clNextFreeRec }

def subCounts (fs : Filesys) (chainNum oldBlkno : Nat) (i : Inode) : Inode :=
  let r := i.clRecs chainNum
  { i with
    clRecs := update i.clRecs chainNum
      ⟨subW 32 r.cFree i.bgFreeBitsCount, subW 32 r.cTotal i.bgBits, oldBlkno⟩
    iClusters := subW 32 i.iClusters i.clCpg
    iSize := subW 32 i.iClusters i.clCpg * fs.fsClustersize
    iTotal := subW 32 i.iTotal i.bgBits
    iUsed := subW 32 i.iUsed (subW 32 i.bgBits i.bgFreeBitsCount)
    clNextFreeRec :=
      if i.clNextFreeRec = chainNum + 1 ∧ oldBlkno = 0 then chainNum else i.clNextFreeRec }

def setClusters (v : Bool) (start n : Nat) (used : Nat → Bool) : Nat → Bool := fun x =>
  if start ≤ x ∧ x < start + n then v else used x

/-- The exit with an error. `old` is the number of the chain and the group it started with, if
    `rec` is set. -/
def out (env : Env) (old : Option (Nat × Nat)) (blkno : Nat) (e : Errcode) (s : St) :
    Option Errcode × St :=
  (some e, {
    inode := match old with
      | none => s.inode
      | some (chainNum, oldBlkno) => subCounts env.fs chainNum oldBlkno s.inode
    used :=
      if blkno ≠ 0 ∧ env.freeClusters = none then
        setClusters false (blocksToClusters env.fs blkno) s.inode.clCpg s.used
      else s.used })

/-- `ocfs2_chain_add_group`. It aborts if the number of clusters is not the one asked for. -/
def chainAddGroup (env : Env) (s : St) : Option (Option Errcode × St) :=
  match env.mallocBlock, env.newClusters with
  | some e, _ => some (some e, s)
  | none, .error (e, blkno) => some (out env none blkno e s)
  | none, .ok (start, found) =>
    let i := s.inode
    -- a division by zero ends the program, too
    if found ≠ i.clCpg ∨ i.clNextFreeRec ≥ i.clCount ∧ (i.clCpg = 0 ∨ i.clCount = 0) then none
    else
      let blkno := clustersToBlocks env.fs start
      let used := setClusters true start found s.used
      let old := some (i.chainNum, (i.clRecs i.chainNum).cBlkno)
      match env.writeGroupDesc with
      | some e => some (out env old blkno e ⟨i, used⟩)
      | none =>
        match env.writeCachedInode.or env.processGroup with
        | some e => some (out env old blkno e ⟨addCounts env.fs blkno i, used⟩)
        | none => some (none, ⟨addCounts env.fs blkno i, used⟩)

/-! ### What should happen -/

/-- A sound inode: a group has some bits, the counters have room for one more group, and the
    size is that of the clusters. -/
structure Inode.Sound (fs : Filesys) (i : Inode) : Prop where
  cpg : 0 < i.clCpg
  bpc : 0 < i.clBpc
  count : 0 < i.clCount
  bits : i.clCpg * i.clBpc < 2 ^ 16
  free : (i.clRecs i.chainNum).cFree + (i.clCpg * i.clBpc - 1) < 2 ^ 32
  total : (i.clRecs i.chainNum).cTotal + i.clCpg * i.clBpc < 2 ^ 32
  clusters : i.iClusters + i.clCpg < 2 ^ 32
  size : i.iSize = i.iClusters * fs.fsClustersize
  allBits : i.iTotal + i.clCpg * i.clBpc < 2 ^ 32
  usedBits : i.iUsed + 1 < 2 ^ 32

/-- The allocator is sound. Clusters that are handed out were free, and those of a call that
    fails are free. -/
structure Loaded (env : Env) (s : St) : Prop where
  sound : s.inode.Sound env.fs
  granted : ∀ start found, env.newClusters = .ok (start, found) →
    found = s.inode.clCpg ∧ 0 < start ∧ start ≤ uint32Max ∧
      ∀ x, start ≤ x → x < start + s.inode.clCpg → s.used x = false
  refused : ∀ e blkno, env.newClusters = .error (e, blkno) →
    ∀ x, blocksToClusters env.fs blkno ≤ x → x < blocksToClusters env.fs blkno + s.inode.clCpg →
      s.used x = false

/-- The inode with one more group of `cl_cpg` clusters, whose descriptor has one bit. -/
def grown (fs : Filesys) (start : Nat) (i : Inode) : Inode :=
  let r := i.clRecs i.chainNum
  { i with
    clRecs := update i.clRecs i.chainNum
      ⟨r.cFree + (i.clCpg * i.clBpc - 1), r.cTotal + i.clCpg * i.clBpc, clustersToBlocks fs start⟩
    iClusters := i.iClusters + i.clCpg
    iSize := i.iSize + i.clCpg * fs.fsClustersize
    iTotal := i.iTotal + i.clCpg * i.clBpc
    iUsed := i.iUsed + 1
    clNextFreeRec := if i.clNextFreeRec < i.clCount then i.clNextFreeRec + 1 else i.clNextFreeRec }

/-- The call returns, with an error and nothing changed or with one more group. -/
def Right (env : Env) (s : St) : Option (Option Errcode × St) → Prop
  | none => False
  | some (some _, t) => t = s
  | some (none, t) => ∃ start, env.newClusters = .ok (start, s.inode.clCpg) ∧
      t = ⟨grown env.fs start s.inode, setClusters true start s.inode.clCpg s.used⟩

/-- `cl_next_free_rec` comes back: a new chain had no group, and the last of the chains that are
    all in use has one. -/
def Inode.Undone (i : Inode) : Prop :=
  if i.clNextFreeRec < i.clCount then (i.clRecs i.chainNum).cBlkno = 0
  else ¬ (i.clNextFreeRec = i.chainNum + 1 ∧ (i.clRecs i.chainNum).cBlkno = 0)

theorem setClusters_free {used used' : Nat → Bool} {start n : Nat}
    (hfree : ∀ x, start ≤ x → x < start + n → used x = false)
    (hrest : ∀ x, ¬ (start ≤ x ∧ x < start + n) → used' x = used x) :
    setClusters false start n used' = used := by
  funext x
  unfold setClusters
  split
  · rename_i hx
    exact (hfree x hx.1 hx.2).symm
  · rename_i hx
    exact hrest x hx

namespace Inode.Sound

variable {fs : Filesys} {i : Inode} (h : i.Sound fs) (start : Nat)

include h

theorem bgBits_eq : i.bgBits = i.clCpg * i.clBpc := Nat.mod_eq_of_lt h.bits

theorem bgFreeBitsCount_eq : i.bgFreeBitsCount = i.clCpg * i.clBpc - 1 := by
  rw [bgFreeBitsCount, h.bgBits_eq]
  exact subW_eq (Nat.mul_pos h.cpg h.bpc) h.bits

theorem descriptor_bit : subW 32 (i.clCpg * i.clBpc) (i.clCpg * i.clBpc - 1) = 1 := by
  have hpos := Nat.mul_pos h.cpg h.bpc
  have hbits := h.bits
  rw [subW_eq (by omega) (by omega)]
  omega

theorem chainNum_lt : i.chainNum < i.clCount := by
  unfold chainNum
  split
  · assumption
  · exact Nat.mod_lt _ h.count

theorem addCounts_eq : addCounts fs (clustersToBlocks fs start) i = grown fs start i := by
  have hnext : (if i.clNextFreeRec = i.chainNum then i.chainNum + 1 else i.clNextFreeRec) =
      (grown fs start i).clNextFreeRec := by
    have hlt := h.chainNum_lt
    by_cases hn : i.clNextFreeRec < i.clCount
    · have hc : i.chainNum = i.clNextFreeRec := if_pos hn
      rw [hc, if_pos rfl]
      exact (if_pos hn).symm
    · rw [if_neg (by omega)]
      exact (if_neg hn).symm
  unfold addCounts
  rw [hnext]
  simp only [grown, h.bgBits_eq, h.bgFreeBitsCount_eq, h.descriptor_bit, h.size, Nat.add_mul,
    addW_eq h.free, addW_eq h.total, addW_eq h.clusters, addW_eq h.allBits, addW_eq h.usedBits]

theorem subCounts_grown (oldBlkno : Nat) (hold : (i.clRecs i.chainNum).cBlkno = oldBlkno) :
    subCounts fs i.chainNum oldBlkno (grown fs start i) =
      { i with clNextFreeRec :=
          if (grown fs start i).clNextFreeRec = i.chainNum + 1 ∧ oldBlkno = 0 then i.chainNum
          else (grown fs start i).clNextFreeRec } := by
  have hb : (grown fs start i).bgBits = i.clCpg * i.clBpc := h.bgBits_eq
  have hf : (grown fs start i).bgFreeBitsCount = i.clCpg * i.clBpc - 1 := h.bgFreeBitsCount_eq
  have hsub : ∀ a b : Nat, a + b < 2 ^ 32 → subW 32 (a + b) b = a := fun a b hlt => by
    rw [subW_eq (by omega) hlt, Nat.add_sub_cancel]
  unfold subCounts
  simp only [hb, hf, h.descriptor_bit]
  simp only [grown, update_self, hsub _ _ h.free, hsub _ _ h.total,
    hsub _ _ h.clusters, hsub _ _ h.allBits, hsub _ _ h.usedBits, ← h.size, update_idem]
  rw [← hold, update_eq_self]

theorem undone_iff :
    subCounts fs i.chainNum (i.clRecs i.chainNum).cBlkno (grown fs start i) = i ↔ i.Undone := by
  have hnext : ∀ n, { i with clNextFreeRec := n } = i ↔ n = i.clNextFreeRec :=
    fun n => ⟨fun heq => congrArg clNextFreeRec heq, fun heq => by rw [heq]⟩
  rw [h.subCounts_grown start _ rfl, hnext, Undone, grown]
  by_cases hn : i.clNextFreeRec < i.clCount
  · have hc : i.chainNum = i.clNextFreeRec := if_pos hn
    rw [if_pos hn, if_pos hn, hc]
    by_cases h0 : (i.clRecs i.clNextFreeRec).cBlkno = 0 <;> simp [h0]
  · rw [if_neg hn]
    split
    · rename_i hboth
      exact ⟨fun heq => by omega, fun hno => absurd hboth hno⟩
    · rename_i hno
      exact ⟨fun _ => hno, fun _ => rfl⟩

theorem subCounts_ne (chainNum oldBlkno : Nat) : subCounts fs chainNum oldBlkno i ≠ i := by
  intro heq
  have hclusters : subW 32 i.iClusters i.clCpg = i.iClusters := congrArg iClusters heq
  have h1 := h.cpg
  have h2 := h.clusters
  rw [subW] at hclusters
  omega

end Inode.Sound

/-- An exit leaves everything as it was exactly if it restores the inode and can free the
    clusters. -/
theorem Loaded.out_iff {env : Env} {s : St} (h : Loaded env s) {start found : Nat}
    (hn : env.newClusters = .ok (start, found)) (chainNum oldBlkno : Nat) (e : Errcode)
    {i : Inode} (hi : i.clCpg = s.inode.clCpg) :
    (out env (some (chainNum, oldBlkno)) (clustersToBlocks env.fs start) e
      ⟨i, setClusters true start s.inode.clCpg s.used⟩).2 = s ↔
    subCounts env.fs chainNum oldBlkno i = s.inode ∧ env.freeClusters = none := by
  obtain ⟨-, hpos, hle, hfree⟩ := h.granted start found hn
  have hblk : clustersToBlocks env.fs start ≠ 0 := ne_of_gt (Nat.mul_pos hpos env.fs.bpc_pos)
  have hstart : blocksToClusters env.fs (clustersToBlocks env.fs start) = start := by
    rw [blocksToClusters, clustersToBlocks, Nat.mul_div_cancel _ env.fs.bpc_pos, if_neg (by omega)]
  have hused : setClusters false start s.inode.clCpg (setClusters true start _ _) = s.used :=
    setClusters_free hfree fun _ hx => if_neg hx
  cases hc : env.freeClusters with
  | none =>
    simp only [out, hc, hblk, hi, hstart, hused, ne_eq, not_false_eq_true, and_self, if_true,
      and_true]
    exact ⟨fun heq => congrArg St.inode heq, fun heq => by rw [heq]⟩
  | some _ =>
    refine ⟨fun heq => ?_, fun heq => nomatch heq.2⟩
    -- the first of the clusters stays in use
    have hu := congrArg (fun t => t.used start) heq
    have hcpg := h.sound.cpg
    simp [out, hc, setClusters, hcpg, hfree start (le_refl _) (by omega)] at hu

/-- **A failed call leaves everything as it was, and a call that succeeds adds one group,
    exactly if** the descriptor can be written, and a call that fails after that finds
    `cl_next_free_rec` as it should be and can free the clusters. -/
theorem chainAddGroup_right_iff (env : Env) (s : St) (h : Loaded env s) :
    Right env s (chainAddGroup env s) ↔ (env.mallocBlock = none → ∀ a, env.newClusters = .ok a →
      env.writeGroupDesc = none ∧ (env.writeCachedInode.or env.processGroup ≠ none →
        s.inode.Undone ∧ env.freeClusters = none)) := by
  cases hm : env.mallocBlock with
  | some e => simp [chainAddGroup, hm, Right]
  | none =>
    cases hn : env.newClusters with
    | error p =>
      obtain ⟨e, blkno⟩ := p
      have hout : (out env none blkno e s).2 = s := by
        simp only [out, setClusters_free (h.refused e blkno hn) fun _ _ => rfl, ite_self]
      simpa [chainAddGroup, hm, hn, Right, out] using hout
    | ok a =>
      obtain ⟨start, found⟩ := a
      obtain ⟨rfl, -⟩ := h.granted start found hn
      have hcpg := h.sound.cpg
      have hcount := h.sound.count
      have hif : ¬ (s.inode.clCpg ≠ s.inode.clCpg ∨ s.inode.clNextFreeRec ≥ s.inode.clCount ∧
          (s.inode.clCpg = 0 ∨ s.inode.clCount = 0)) := by omega
      simp only [chainAddGroup, hm, hn, if_neg hif, forall_const, Except.ok.injEq, forall_eq']
      cases hw : env.writeGroupDesc with
      | some e =>
        refine ⟨fun hr => ?_, fun hr => nomatch hr.1⟩
        exact absurd ((h.out_iff hn _ _ e rfl).mp hr).1 (h.sound.subCounts_ne _ _)
      | none =>
        rw [h.sound.addCounts_eq]
        cases hp : env.writeCachedInode.or env.processGroup with
        | some e =>
          refine (h.out_iff (i := grown env.fs start s.inode) hn _ _ e rfl).trans ?_
          rw [h.sound.undone_iff]
          simp
        | none => simp [Right, hn]

/-- An allocator with one chain of one group of 16 blocks, and clusters from 2 on for another. -/
def oneGroup : St := ⟨⟨4, 4, 2, 1, fun c => if c = 0 then ⟨15, 16, 4⟩ else ⟨0, 0, 0⟩, 4, 4 * 4096,
  16, 1⟩, fun x => decide (x < 2)⟩

/-- Clusters of four blocks. The inode cannot be written if `fault` is set, and with `early` not
    even the descriptor. -/
def faulty (early fault : Bool) : Env where
  fs := { Filesys.smallBlocks 1000 with
    sBlocksizeBits := 10, blocksize_ge := by decide, blocksize_le := by decide }
  mallocBlock := none
  newClusters := .ok (2, 4)
  writeGroupDesc := if early then some .io else none
  writeCachedInode := if fault then some .io else none
  processGroup := none
  freeClusters := none

theorem oneGroup_loaded (early fault : Bool) : Loaded (faulty early fault) oneGroup where
  sound := by constructor <;> first | decide | rfl
  granted := by
    rintro start found ⟨⟩
    refine ⟨rfl, by decide, by decide, fun x hx _ => ?_⟩
    exact decide_eq_false (Nat.not_lt.mpr hx)
  refused := nofun

/-- A call that cannot write the descriptor fails, and takes the group off the counts that were
    never added to. -/
theorem chainAddGroup_uncounted : Loaded (faulty true false) oneGroup ∧
    (chainAddGroup (faulty true false) oneGroup).map (fun out => (out.1, out.2.inode.iClusters,
      out.2.inode.iTotal, out.2.inode.iUsed, (out.2.inode.clRecs 1).cTotal)) =
      some (some .io, 0, 0, 0, 2 ^ 32 - 16) ∧
    ¬ Right (faulty true false) oneGroup (chainAddGroup (faulty true false) oneGroup) := by
  refine ⟨oneGroup_loaded true false, by decide, fun hr => ?_⟩
  exact absurd (congrArg (fun t => t.inode.iUsed) (hr)) (by decide)

theorem chainAddGroup_right_later : Loaded (faulty false true) oneGroup ∧
    Right (faulty false true) oneGroup (chainAddGroup (faulty false true) oneGroup) :=
  ⟨oneGroup_loaded false true, (chainAddGroup_right_iff _ _ (oneGroup_loaded false true)).mpr
    fun _ _ _ => ⟨rfl, fun _ => ⟨rfl, rfl⟩⟩⟩

end Ocfs2Tools.AddGroup
