import Ocfs2Tools.ExtentTree.Edge

/-!
# Growing an extent tree: `ocfs2_grow_tree`

When the rightmost leaf is full, a new branch is hung below the lowest node of the
right edge that has room; if no node has, the root's records first move into a new
block and the tree gets one level deeper.
-/

namespace Ocfs2Tools

open List Prog

variable {fs : Filesys} {s t : St} {ebs ebs' : Nat → Option ExtentBlock}
  {target : Option ExtentBlock} {lastEb leaf last eb y : ExtentBlock} {new : List Nat}
  {d D j depth top blkno : Nat} {ks ks' : List Node} {left e : List ExtentBlock}

/-! ### The functions of `extent_tree.c` -/

/-- `ocfs2_sum_rightmost_rec`. -/
def sumRightmostRec (el : ExtentList) : Nat :=
  addW 32 (el.recAt (el.lNextFreeRec - 1)).eCpos
    (recClusters el.lTreeDepth (el.recAt (el.lNextFreeRec - 1)))

/-- The allocations of `ocfs2_add_branch`: the numbers of the blocks, the blocks as they were read
    back, and how the loop ended. A block whose write failed has its number in the list already. -/
def newBranchBlocks (fs : Filesys) : Nat → M (List Nat × List ExtentBlock × Except Errcode Unit)
  | 0 => pure ([], [], .ok ())
  | n + 1 => do
    match ← newExtentBlock fs with
    | (blkno, .error e) => pure ([blkno], [], .error e)
    | (blkno, .ok _) =>
      match ← attempt (readExtentBlock fs blkno) with
      | .error e => pure ([blkno], [], .error e)
      | .ok eb =>
        let (blknos, ebs, r) ← newBranchBlocks fs n
        pure (blkno :: blknos, eb :: ebs, r)

/-- A record of no clusters at `cpos` that leads to block `blkno`. -/
def branchRec (cpos blkno : Nat) : ExtentRec := ⟨cpos, 0, 0, 0, blkno⟩

/-- The blocks of a new branch, the leaf first; `depth` is the depth of the first one
    and `nextBlkno` what its record leads to. -/
def branchEbs (newCpos : Nat) : Nat → Nat → List ExtentBlock → List ExtentBlock
  | _, _, [] => []
  | depth, nextBlkno, eb :: ebs =>
    { eb with
      hNextLeafBlk := 0
      hList := ⟨depth, 1, (List.replicate eb.hList.lCount ExtentRec.zero).set 0
        (branchRec newCpos nextBlkno)⟩ } :: branchEbs newCpos (depth + 1) eb.hBlkno ebs

def writeBranch (fs : Filesys) : List Nat → List ExtentBlock → M Unit
  | blkno :: blknos, eb :: ebs => do
    writeExtentBlock fs blkno eb
    writeBranch fs blknos ebs
  | _, _ => pure ()

/-- `ocfs2_add_branch` once its blocks are there: fill them, link them below `el` and
    write everything back. -/
def linkBranch (fs : Filesys) (target : Option ExtentBlock) (lastEb : ExtentBlock)
    (el : ExtentList) (blknos : List Nat) (bufs : List ExtentBlock) : M ExtentBlock :=
  let newCpos := sumRightmostRec lastEb.hList
  match branchEbs newCpos 0 0 bufs, bufs.getLast? with
  | leaf :: rest, some top => do
    let el := el.push (branchRec newCpos top.hBlkno)
    Prog.modify fun s => { s with
      root := { s.root with
        iList := if target.isSome then s.root.iList else el
        iLastEbBlk := leaf.hBlkno } }
    writeBranch fs blknos (leaf :: rest)
    writeExtentBlock fs lastEb.hBlkno { lastEb with hNextLeafBlk := leaf.hBlkno }
    match target with
    | some eb => writeExtentBlock fs eb.hBlkno { eb with hList := el }
    | none => pure ()
    pure leaf
  | _, _ => abort

def deleteBranch (fs : Filesys) : List Nat → M Unit
  | [] => pure ()
  | blkno :: blknos =>
    if blkno = 0 then deleteBranch fs blknos
    else do
      let _ ← attempt (deleteExtentBlock fs blkno)
      deleteBranch fs blknos

def targetList (s : St) (target : Option ExtentBlock) : ExtentList :=
  match target with
  | some eb => eb.hList
  | none => s.root.iList

/-- `ocfs2_add_branch`: `target` is the block to start at, if it is not the root; the
    new value of the `last_eb` buffer is returned. -/
def addBranch (fs : Filesys) (target : Option ExtentBlock) (lastEb : ExtentBlock) :
    M ExtentBlock := do
  let s ← Prog.get
  let el := targetList s target
  check (decide (el.lTreeDepth ≠ 0))
  let (blknos, bufs, r) ← newBranchBlocks fs el.lTreeDepth
  match ← attempt (ofExcept r >>= fun _ => linkBranch fs target lastEb el blknos bufs) with
  | .ok leaf => pure leaf
  | .error e => do
    deleteBranch fs blknos
    fail e

/-- The loop of `ocfs2_find_branch_target`. There is one buffer for all blocks: `buf` is
    what it holds, `lowest` whether a block with room was seen. The walk of a tree takes
    less than `l_tree_depth` turns. -/
def findBranchTargetLoop (fs : Filesys) :
    Nat → ExtentList → Option ExtentBlock → Bool → M (Option ExtentBlock × Bool)
  | 0, el, buf, lowest => if el.lTreeDepth ≤ 1 then pure (buf, lowest) else abort
  | n + 1, el, buf, lowest =>
    if el.lTreeDepth ≤ 1 then pure (buf, lowest)
    else if el.lNextFreeRec = 0 then fail .corruptExtentBlock
    else if (el.recAt (el.lNextFreeRec - 1)).eBlkno = 0 then fail .corruptExtentBlock
    else do
      let eb ← readExtentBlock fs (el.recAt (el.lNextFreeRec - 1)).eBlkno
      findBranchTargetLoop fs n eb.hList (some eb)
        (lowest || decide (eb.hList.lNextFreeRec < eb.hList.lCount))

/-- `ocfs2_find_branch_target`: whether the depth has to grow, and the target block. -/
def findBranchTarget (fs : Filesys) : M (Bool × Option ExtentBlock) := do
  let s ← Prog.get
  let el := s.root.iList
  let (buf, lowest) ← findBranchTargetLoop fs el.lTreeDepth el none false
  pure (!lowest && el.lNextFreeRec == el.lCount, if lowest then buf else none)

/-- `shift_tree_depth`. -/
def shiftTreeDepth (fs : Filesys) : M ExtentBlock := do
  let s ← Prog.get
  let el := s.root.iList
  if el.lNextFreeRec ≠ el.lCount then fail .internalFailure
  else do
    let (blkno, r) ← newExtentBlock fs
    ofExcept r
    let buf ← readExtentBlock fs blkno
    let eb := { buf with
      hList := ⟨el.lTreeDepth, el.lNextFreeRec, el.lRecs ++ buf.hList.lRecs.drop el.lCount⟩ }
    let top : ExtentRec := (branchRec 0 blkno).setIntClusters (sumRightmostRec eb.hList)
    Prog.modify fun s => { s with
      root := { s.root with
        iList := ⟨el.lTreeDepth + 1, 1, (List.replicate el.lCount ExtentRec.zero).set 0 top⟩
        iLastEbBlk := if el.lTreeDepth = 0 then blkno else s.root.iLastEbBlk } }
    writeExtentBlock fs blkno eb
    pure eb

/-- `ocfs2_grow_tree`: the final depth and the new value of the `last_eb` buffer. -/
def growTree (fs : Filesys) (lastEb : ExtentBlock) : M (Nat × ExtentBlock) := do
  let s ← Prog.get
  let depth := s.root.iList.lTreeDepth
  let (shift, target) ← findBranchTarget fs
  if shift then do
    let eb ← shiftTreeDepth fs
    if depth = 0 then pure (1, eb)
    else do
      let last ← addBranch fs (some eb) lastEb
      pure (depth + 1, last)
  else do
    let last ← addBranch fs target lastEb
    pure (depth, last)

/-! ### The walk for the target -/

/-- What `ocfs2_find_branch_target` sees on its walk: it ends with the lowest block of the
    edge in its buffer. -/
theorem findBranchTargetLoop_eq : ∀ {d n lo hi el ks s} buf lowest, WfList fs d true lo hi el ks →
    readKids s.dev.ebs d el = some ks → (∀ b ∈ treeBlocks d ks, outOfRange fs b = false) → d ≤ n →
    findBranchTargetLoop fs n el buf lowest s = some (.ok ((edgeBlocks d ks).getLast?.or buf,
        lowest || (edgeBlocks d ks).any fun eb => decide eb.hList.HasRoom), s)
  | 0, n, _, _, el, ks, s, buf, lowest, hw, _, _, _ => by
    have hd := hw.depth
    cases n <;> simp [findBranchTargetLoop, hd, edgeBlocks]
  | 1, n, _, _, el, ks, s, buf, lowest, hw, _, _, _ => by
    have hd := hw.depth
    cases n <;> simp [findBranchTargetLoop, hd, edgeBlocks]
  | d + 2, 0, _, _, _, _, _, _, _, _, _, _, hn => by omega
  | d + 2, n + 1, lo, hi, el, ks, s, buf, lowest, hw, hread, hrange, hn => by
    obtain ⟨rs, r, js, k, hlive, rfl, hlen, hcnt, hkid⟩ := hw.edge
    have hnf : el.lNextFreeRec = rs.length + 1 := by
      rw [← ExtentList.live_length hw.1.le, hlive]
      simp
    have hrec : el.recAt (el.lNextFreeRec - 1) = r := by
      apply ExtentList.recAt_live
      rw [hlive, hnf]
      simp
    have hlead : Leads s.dev.ebs (d + 1) r k := by
      rw [readKids_succ, hlive, forall₂_append hlen] at hread
      exact (forall₂_cons.mp hread.2).1
    have hb := hrange r.eBlkno (mem_treeBlocks_succ.mpr ⟨k, by simp, .inl hlead.blkno.symm⟩)
    have hblk : r.eBlkno ≠ 0 := ne_zero_of_inRange hb
    have hih := findBranchTargetLoop_eq (n := n) (some k.eb)
      (lowest || decide k.eb.hList.HasRoom) hkid hlead.kids
      (fun b hb' => hrange b (mem_treeBlocks_succ.mpr ⟨k, by simp, .inr hb'⟩)) (by omega)
    have h1 : ¬ d + 1 + 1 ≤ 1 := by omega
    have h2 : ¬ el.lNextFreeRec = 0 := by omega
    rw [findBranchTargetLoop, hw.depth, if_neg h1, if_neg h2, hrec, if_neg hblk,
      bind_ok (readExtentBlock_ok hb hlead.eb hkid.le_count)]
    refine Eq.trans hih ?_
    rw [edgeBlocks_concat]
    simp [Bool.or_assoc, getLast?_cons]
/-! ### What a successful growth did to the device -/

/-- The blocks of `new` were free, differ from each other and are all that changed
    between `s` and `t`. -/
structure NewBlocks (fs : Filesys) (s : St) (new : List Nat) (t : St) : Prop where
  nodup : new.Nodup
  free : ∀ b ∈ new, some b ∈ s.allocs ∧ s.dev.used 0 b = false ∧ outOfRange fs b = false
  root : t.root = s.root
  frame : ∀ b, b ∉ new → t.dev.ebs b = s.dev.ebs b

theorem newBranchBlocks_inv : ∀ {n s t blknos bufs a},
    newBranchBlocks fs n s = some (.ok (blknos, bufs, .ok a), t) →
    blknos.length = n ∧ bufs = blknos.map (initEb fs) ∧ NewBlocks fs s blknos t
  | 0, s, t, blknos, bufs, a, h => by
    cases h
    exact ⟨rfl, rfl, nodup_nil, nofun, rfl, fun _ _ => rfl⟩
  | n + 1, s, t, blknos, bufs, a, h => by
    obtain ⟨⟨blkno, r⟩, u, hnew, h⟩ := bind_eq_ok h
    cases r with
    | error e => cases h
    | ok x =>
      obtain ⟨r, v, hr, h⟩ := bind_eq_ok h
      obtain ⟨r', hr', hread⟩ := attempt_eq hr
      cases hr'
      cases r with
      | error e => cases h
      | ok eb =>
        obtain ⟨⟨nos, ebs, r⟩, w, hrest, h⟩ := bind_eq_ok h
        cases h
        obtain ⟨halloc, hfree, hrange, rfl⟩ := newExtentBlock_inv hnew
        obtain ⟨rfl, heb, -⟩ := readExtentBlock_inv hread
        obtain ⟨hlen, hbufs, hblocks⟩ := newBranchBlocks_inv hrest
        have hebeq : initEb fs blkno = eb := Option.some.inj ((if_pos rfl).symm.trans heb)
        -- what was allocated later was not in use, so it is another block
        have hnot : blkno ∉ nos := by
          intro hb
          cases (if_pos ⟨rfl, rfl⟩).symm.trans (hblocks.free blkno hb).2.1
        refine ⟨by simp [hlen], by simp [hebeq, hbufs], nodup_cons.mpr ⟨hnot, hblocks.nodup⟩,
          forall_mem_cons.mpr ⟨⟨mem_of_mem_head? halloc, hfree, hrange⟩, fun b hb => ?_⟩,
          hblocks.root, fun b hb => ?_⟩
        · obtain ⟨h1, h2, h3⟩ := hblocks.free b hb
          have hne : b ≠ blkno := fun h => hnot (h ▸ hb)
          exact ⟨mem_of_mem_tail h1, (if_neg fun h => hne h.2).symm.trans h2, h3⟩
        · rw [mem_cons, not_or] at hb
          exact (hblocks.frame b hb.2).trans (if_neg hb.1)

theorem writeBranch_inv : ∀ {ebs s t a},
    writeBranch fs (ebs.map ExtentBlock.hBlkno) ebs s = some (.ok a, t) →
    (ebs.map ExtentBlock.hBlkno).Nodup →
    t.root = s.root ∧ (∀ eb ∈ ebs, t.dev.ebs eb.hBlkno = some eb) ∧
      ∀ b, b ∉ ebs.map ExtentBlock.hBlkno → t.dev.ebs b = s.dev.ebs b
  | [], s, t, a, h, _ => by
    cases h
    exact ⟨rfl, nofun, fun _ _ => rfl⟩
  | eb :: ebs, s, t, a, h, hn => by
    obtain ⟨_, u, hwrite, hrest⟩ := bind_eq_ok h
    obtain ⟨-, rfl⟩ := writeExtentBlock_inv hwrite
    obtain ⟨hnot, hn⟩ := nodup_cons.mp hn
    obtain ⟨hroot, hin, hout⟩ := writeBranch_inv hrest hn
    refine ⟨hroot, forall_mem_cons.mpr ⟨(hout _ hnot).trans (if_pos rfl), hin⟩, fun b hb => ?_⟩
    rw [map_cons, mem_cons, not_or] at hb
    exact (hout b hb.2).trans (if_neg hb.1)

theorem branchEbs_blknos (newCpos : Nat) : ∀ depth next bufs,
    (branchEbs newCpos depth next bufs).map ExtentBlock.hBlkno = bufs.map ExtentBlock.hBlkno
  | _, _, [] => rfl
  | depth, next, eb :: bufs => by
    rw [branchEbs, map_cons, map_cons, branchEbs_blknos]

theorem map_initEb_blknos (fs : Filesys) (new : List Nat) :
    (new.map (initEb fs)).map ExtentBlock.hBlkno = new := by
  rw [map_map]
  exact map_id _

def newBranch (fs : Filesys) (lastEb : ExtentBlock) (new : List Nat) : List ExtentBlock :=
  branchEbs (sumRightmostRec lastEb.hList) 0 0 (new.map (initEb fs))

def linkedList (s : St) (target : Option ExtentBlock) (lastEb : ExtentBlock) (top : Nat) :
    ExtentList :=
  (targetList s target).push (branchRec (sumRightmostRec lastEb.hList) top)

/-- What `ocfs2_add_branch` leaves behind when it succeeds. -/
structure BranchAdded (fs : Filesys) (s : St) (target : Option ExtentBlock)
    (lastEb : ExtentBlock) (new : List Nat) (top : Nat) (leaf : ExtentBlock) (t : St) :
    Prop where
  depth : new.length = (targetList s target).lTreeDepth
  nodup : new.Nodup
  free : ∀ b ∈ new, some b ∈ s.allocs ∧ s.dev.used 0 b = false ∧ outOfRange fs b = false
  leaf_eq : (newBranch fs lastEb new).head? = some leaf
  top_eq : new.getLast? = some top
  root : t.root = { s.root with
    iList := if target.isSome then s.root.iList else linkedList s target lastEb top
    iLastEbBlk := leaf.hBlkno }
  target_eb : ∀ eb, target = some eb →
    t.dev.ebs eb.hBlkno = some { eb with hList := linkedList s target lastEb top }
  last_eb : (∀ eb, target = some eb → eb.hBlkno ≠ lastEb.hBlkno) →
    t.dev.ebs lastEb.hBlkno = some { lastEb with hNextLeafBlk := leaf.hBlkno }
  frame : ∀ b, b ≠ lastEb.hBlkno → (∀ eb, target = some eb → b ≠ eb.hBlkno) →
    (∀ eb ∈ newBranch fs lastEb new, eb.hBlkno = b → t.dev.ebs b = some eb) ∧
      (b ∉ new → t.dev.ebs b = s.dev.ebs b)

theorem linkBranch_inv (hlen : new.length = (targetList s target).lTreeDepth)
    (hblocks : NewBlocks fs s new u)
    (h : linkBranch fs target lastEb (targetList s target) new (new.map (initEb fs)) u =
      some (.ok leaf, t)) : ∃ top, BranchAdded fs s target lastEb new top leaf t := by
  have hblknos : (newBranch fs lastEb new).map ExtentBlock.hBlkno = new := by
    rw [newBranch, branchEbs_blknos, map_initEb_blknos]
  simp only [linkBranch] at h
  rw [← newBranch] at h
  generalize hb : newBranch fs lastEb new = bufs, hl : getLast? _ = last at h
  split at h
  swap
  · cases h
  next first rest top =>
  rw [hb] at hblknos
  have hhead : (newBranch fs lastEb new).head? = some first := congrArg head? hb
  have htop : new.getLast? = some top.hBlkno := by
    rw [getLast?_map] at hl
    obtain ⟨b, hb', rfl⟩ := Option.map_eq_some_iff.mp hl
    exact hb'
  obtain ⟨_, u', hmod, h⟩ := bind_eq_ok h
  cases hmod
  obtain ⟨_, v, hbr, h⟩ := bind_eq_ok h
  obtain ⟨_, w, hlast, h⟩ := bind_eq_ok h
  rw [← hblknos] at hbr
  obtain ⟨hroot, hin, hout⟩ := writeBranch_inv hbr (hblknos ▸ hblocks.nodup)
  obtain ⟨-, rfl⟩ := writeExtentBlock_inv hlast
  have hframe : ∀ b x, x = v.dev.ebs b →
      (∀ eb ∈ newBranch fs lastEb new, eb.hBlkno = b → x = some eb) ∧
        (b ∉ new → x = s.dev.ebs b) := by
    rintro b _ rfl
    exact ⟨fun eb heb he => he ▸ hin eb (hb ▸ heb),
      fun hbn => (hout b (hblknos ▸ hbn)).trans (hblocks.frame b hbn)⟩
  cases target with
  | none =>
    cases h
    exact ⟨top.hBlkno, hlen, hblocks.nodup, hblocks.free, hhead, htop,
      hroot.trans (by rw [← hblocks.root]; rfl), nofun, fun _ => if_pos rfl,
      fun b hb1 _ => hframe b _ (if_neg hb1)⟩
  | some teb =>
    obtain ⟨_, x, htgt, h⟩ := bind_eq_ok h
    cases h
    obtain ⟨-, rfl⟩ := writeExtentBlock_inv htgt
    refine ⟨top.hBlkno, hlen, hblocks.nodup, hblocks.free, hhead, htop,
      hroot.trans (by rw [← hblocks.root]; rfl), ?_, fun hne => ?_,
      fun b hb1 hb2 => hframe b _ ((if_neg (hb2 teb rfl)).trans (if_neg hb1))⟩
    · rintro eb he
      cases he
      exact if_pos rfl
    · exact (if_neg (hne teb rfl).symm).trans (if_pos rfl)

theorem addBranch_inv (h : addBranch fs target lastEb s = some (.ok leaf, t)) :
    ∃ new top, BranchAdded fs s target lastEb new top leaf t := by
  rw [addBranch, bind_ok (get_run s)] at h
  obtain ⟨_, u, hcheck, h⟩ := bind_eq_ok h
  obtain ⟨⟨new, bufs, r⟩, v, hnew, h⟩ := bind_eq_ok h
  obtain ⟨r', w, hatt, h⟩ := bind_eq_ok h
  obtain ⟨r'', hr'', hrun⟩ := attempt_eq hatt
  cases hr''
  cases r' with
  | error e =>
    obtain ⟨_, x, -, h⟩ := bind_eq_ok h
    cases h
  | ok leaf' =>
    cases h
    obtain ⟨a, x, hof, hlink⟩ := bind_eq_ok hrun
    cases r with
    | error e => cases hof
    | ok a =>
      cases hof
      obtain ⟨-, hu⟩ := check_inv hcheck
      subst hu
      obtain ⟨hlen, rfl, hblocks⟩ := newBranchBlocks_inv hnew
      exact ⟨new, linkBranch_inv hlen hblocks hlink⟩

/-! ### The new branch as a tree -/

/-- Put single-child blocks above a node, one after the other. -/
def climb : Node → List ExtentBlock → Node
  | k, [] => k
  | k, eb :: ebs => climb (.mk eb [k]) ebs

theorem branchEb_live {c next n : Nat} (hn : 0 < n) :
    (ExtentList.mk d 1 ((List.replicate n ExtentRec.zero).set 0 (branchRec c next))).live =
      [branchRec c next] := by
  obtain ⟨m, rfl⟩ := Nat.exists_eq_succ_of_ne_zero (Nat.pos_iff_ne_zero.mp hn)
  simp [ExtentList.live, replicate_succ]

theorem climb_branch {c : Nat} : ∀ bufs {d k}, Branch ebs d (branchRec c k.eb.hBlkno) k leaf →
    (∀ eb ∈ bufs, 0 < eb.hList.lCount) →
    (∀ eb ∈ branchEbs c (d + 1) k.eb.hBlkno bufs, ebs eb.hBlkno = some eb) →
    ∃ top, top = climb k (branchEbs c (d + 1) k.eb.hBlkno bufs) ∧
      Branch ebs (d + bufs.length) (branchRec c top.eb.hBlkno) top leaf ∧
      nodeBlocks (d + bufs.length) top = (bufs.map ExtentBlock.hBlkno).reverse ++ nodeBlocks d k
  | [], d, k, hk, _, _ => ⟨k, rfl, hk, rfl⟩
  | eb :: bufs, d, k, hk, hcount, hdev => by
    have hpos := hcount eb (by simp)
    rw [branchEbs] at hdev ⊢
    generalize heb' : ({ eb with
      hNextLeafBlk := 0
      hList := ⟨d + 1, 1, (List.replicate eb.hList.lCount ExtentRec.zero).set 0
        (branchRec c k.eb.hBlkno)⟩ }) = eb' at hdev ⊢
    have hno : eb.hBlkno = eb'.hBlkno := by rw [← heb']
    have hlive : eb'.hList.live = [branchRec c k.eb.hBlkno] := by
      rw [← heb']
      exact branchEb_live hpos
    have hle : eb'.hList.lNextFreeRec ≤ eb'.hList.lCount := by
      rw [← heb']
      simp only [ExtentList.lCount, length_set, length_replicate]
      exact hpos
    have hnew : Branch ebs (d + 1) (branchRec c (Node.mk eb' [k]).eb.hBlkno)
        (.mk eb' [k]) leaf := by
      refine ⟨⟨hdev _ (mem_cons_self ..), rfl, ?_⟩, ?_, hle, fun j hj => ?_⟩
      · rw [readKids_succ, Node.eb_mk, hlive]
        exact .cons hk.leads .nil
      · rw [nodeLeaves, treeLeaves_succ, Node.kids_mk, flatMap_singleton, hk.leaves]
      · rw [Node.kids_mk, mem_singleton] at hj
        subst hj
        exact hk.bounded
    rw [hno] at hdev ⊢
    obtain ⟨top, htop, hbr, hblocks⟩ := climb_branch bufs hnew
      (fun x hx => hcount x (mem_cons_of_mem _ hx))
      (fun x hx => hdev x (mem_cons_of_mem _ hx))
    refine ⟨top, htop, ?_, ?_⟩
    · rw [length_cons, Nat.add_comm bufs.length, ← Nat.add_assoc]
      exact hbr
    · rw [length_cons, Nat.add_comm bufs.length, ← Nat.add_assoc, hblocks]
      simp [nodeBlocks, treeBlocks_succ, hno]

theorem BranchAdded.branch (h : BranchAdded fs s target lastEb new top leaf t)
    (hd : (targetList s target).lTreeDepth = d + 1)
    (hdev : ∀ eb ∈ newBranch fs lastEb new, t.dev.ebs eb.hBlkno = some eb) :
    ∃ k, Branch t.dev.ebs d (branchRec (sumRightmostRec lastEb.hList) top) k leaf ∧
      nodeBlocks d k = new.reverse := by
  obtain ⟨b, rest, rfl⟩ : ∃ b rest, new = b :: rest := by
    cases new with
    | nil => cases h.top_eq
    | cons b rest => exact ⟨b, rest, rfl⟩
  have hcount : ∀ eb ∈ (b :: rest).map (initEb fs), 0 < eb.hList.lCount := by
    intro eb heb
    obtain ⟨x, -, rfl⟩ := mem_map.mp heb
    have := extentRecsPerEb_ge fs
    simp only [initEb, ExtentList.lCount, length_replicate]
    omega
  have hpos := hcount _ (mem_cons_self ..)
  rw [newBranch, map_cons, branchEbs] at hdev
  have hleaf := h.leaf_eq
  rw [newBranch, map_cons, branchEbs, head?_cons, Option.some.injEq] at hleaf
  rw [hleaf] at hdev
  have hno : leaf.hBlkno = b := by rw [← hleaf]; rfl
  have hlist : leaf.hList.lNextFreeRec = 1 ∧ 0 < leaf.hList.lCount := by
    rw [← hleaf]
    refine ⟨rfl, ?_⟩
    simp only [ExtentList.lCount, length_set, length_replicate]
    exact hpos
  have hbot : Branch t.dev.ebs 0
      (branchRec (sumRightmostRec lastEb.hList) (Node.mk leaf []).eb.hBlkno)
        (.mk leaf []) leaf := by
    refine ⟨⟨hdev _ (mem_cons_self ..), rfl, rfl⟩, rfl, ?_⟩
    show leaf.hList.lNextFreeRec ≤ leaf.hList.lCount
    omega
  have hclimb := climb_branch (rest.map (initEb fs)) hbot
    (fun x hx => hcount x (mem_cons_of_mem _ hx))
  obtain ⟨k, hk, hbr, hblocks⟩ := hclimb fun x hx => by
    rw [Node.eb_mk, hno] at hx
    exact hdev x (mem_cons_of_mem _ hx)
  have hlen : d = 0 + (rest.map (initEb fs)).length := by
    have := h.depth
    simp at this ⊢
    omega
  have htop : top = k.eb.hBlkno := by
    have hfirst : (nodeBlocks (0 + (rest.map (initEb fs)).length) k).head? = some k.eb.hBlkno := rfl
    rw [hblocks, map_initEb_blknos] at hfirst
    have := h.top_eq
    rw [← head?_reverse, reverse_cons] at this
    simp only [nodeBlocks, treeBlocks, Node.eb_mk, hno] at hfirst
    rw [hfirst] at this
    exact (Option.some.inj this).symm
  refine ⟨k, ?_, ?_⟩
  · rw [hlen, htop]
    exact hbr
  · rw [hlen, hblocks, map_initEb_blknos]
    simp [nodeBlocks, treeBlocks, hno]

/-! ### The property and its exception -/

/-- A branch was added below the lowest list of the right edge with room, and nothing
    else changed in the blocks of the tree. -/
def BranchPlaced (D : Nat) (el : ExtentList) (ks : List Node) (el' : ExtentList)
    (ks' : List Node) : Prop :=
  ∃ up x low r low' new, edgeLists D el ks = up ++ x :: low ∧ x.HasRoom ∧
    (∀ z ∈ low, ¬ z.HasRoom) ∧ edgeLists D el' ks' = up ++ x.push r :: low' ∧
    treeBlocks D ks' = treeBlocks D ks ++ new ∧ new.length = low.length + 1 ∧
    (treeBlocks D ks').Nodup

/-- What a growth of the tree below `di` has to leave behind. -/
structure Grown (di : Dinode) (ks : List Node) (depth : Nat) (last : ExtentBlock) (t : St)
    (ks' : List Node) : Prop where
  read : readKids t.dev.ebs depth t.root.iList = some ks'
  depth_eq : t.root.iList.lTreeDepth = depth
  free : last.hList.HasRoom
  leaf : (treeLeaves depth ks').getLast? = some last
  lastBlk : t.root.iLastEbBlk = last.hBlkno
  chain : LeafChain (treeLeaves depth ks')
  bounded : Bounded depth t.root.iList ks'
  recs : treeRecs depth t.root.iList ks' = treeRecs di.iList.lTreeDepth di.iList ks
  place : depth = di.iList.lTreeDepth ∧ BranchPlaced depth di.iList ks t.root.iList ks' ∨
    (∀ x ∈ edgeLists di.iList.lTreeDepth di.iList ks, ¬ x.HasRoom) ∧ depth = di.iList.lTreeDepth + 1

/-- A block of the right edge has room, but the lowest one above the leaves has not: the
    walk of `ocfs2_find_branch_target` reads the lowest one over the one it meant. -/
def LostTarget (D : Nat) (ks : List Node) : Prop :=
  (∃ x ∈ edgeBlocks D ks, x.hList.HasRoom) ∧
    ∃ y, (edgeBlocks D ks).getLast? = some y ∧ ¬ y.hList.HasRoom

/-- The allocator does not hand the block out: it is in use there, or belongs to another slot. -/
def Held (s : St) (b : Nat) : Prop := s.dev.used 0 b = true ∨ some b ∉ s.allocs

/-- The rightmost leaf is full; in a tree with blocks it is `lastEb`. -/
def RightmostFull (di : Dinode) (ks : List Node) (lastEb : ExtentBlock) : Prop :=
  if di.iList.lTreeDepth = 0 then ¬ di.iList.HasRoom
  else (treeLeaves di.iList.lTreeDepth ks).getLast? = some lastEb ∧ ¬ lastEb.hList.HasRoom

/-! ### The cases of a growth -/

theorem leafChain_extend : ∀ {left last last' leaf},
    LeafChain (left ++ [last]) → last'.hBlkno = last.hBlkno → last'.hNextLeafBlk = leaf.hBlkno →
    leaf.hNextLeafBlk = 0 → LeafChain (left ++ [last', leaf])
  | [], _, _, _, _, _, h2, h3 => ⟨h2, h3⟩
  | [_], _, _, _, h, h1, h2, h3 => ⟨h.1.trans h1.symm, h2, h3⟩
  | _ :: y :: left, _, _, _, h, h1, h2, h3 =>
    have hrest : LeafChain ((y :: left) ++ [_]) := h.2
    ⟨h.1, leafChain_extend hrest h1 h2 h3⟩

theorem newBranch_leaf (h : (newBranch fs lastEb new).head? = some leaf) :
    leaf.hNextLeafBlk = 0 ∧ leaf.hList.HasRoom ∧ leaf.hList.nonempty = [] := by
  cases new with
  | nil => cases h
  | cons b rest =>
    rw [newBranch, map_cons, branchEbs, head?_cons, Option.some.injEq] at h
    have hcount := extentRecsPerEb_ge fs
    have hpos : 0 < (initEb fs b).hList.lCount := by
      simp only [initEb, ExtentList.lCount, length_replicate]
      omega
    rw [← h]
    refine ⟨rfl, ?_, ?_⟩
    · simp only [ExtentList.HasRoom, ExtentList.lCount, initEb, length_set, length_replicate]
      omega
    · rw [ExtentList.nonempty, branchEb_live hpos]
      rfl

theorem Hung.grown {di : Dinode} {el : ExtentList} {ks0 : List Node} {last' : ExtentBlock}
    {link : ExtentRec} (h : Hung (depth + 1) j el ks0 t.root.iList ks' left last' leaf link new)
    (hD : di.iList.lTreeDepth = D + 1)
    (hread : readKids t.dev.ebs (depth + 1) t.root.iList = some ks')
    (hdepth : t.root.iList.lTreeDepth = depth + 1) (hl : treeLeaves (D + 1) ks = left ++ [last])
    (hchain : LeafChain (left ++ [last])) (hno : last'.hBlkno = last.hBlkno)
    (hlist : last'.hList = last.hList) (hnext : last'.hNextLeafBlk = leaf.hBlkno)
    (hblk : t.root.iLastEbBlk = leaf.hBlkno)
    (hleaf : leaf.hNextLeafBlk = 0 ∧ leaf.hList.HasRoom ∧ leaf.hList.nonempty = [])
    (hplace : depth + 1 = di.iList.lTreeDepth ∧
        BranchPlaced (depth + 1) di.iList ks t.root.iList ks' ∨
      (∀ x ∈ edgeLists di.iList.lTreeDepth di.iList ks, ¬ x.HasRoom) ∧
        depth + 1 = di.iList.lTreeDepth + 1) : Grown di ks (depth + 1) leaf t ks' := by
  refine ⟨hread, hdepth, hleaf.2.1, ?_, hblk, ?_, h.bounded, ?_, hplace⟩
  · rw [h.leaves]
    simp
  · rw [h.leaves]
    exact leafChain_extend hchain hno hnext hleaf.1
  · rw [hD, treeRecs_eq_leaves, treeRecs_eq_leaves, h.leaves, hl]
    simp [hlist, hleaf.2.2]

/-- What the tree and the allocator are before `ocfs2_grow_tree`, in a tree with blocks. -/
structure GrowPre (fs : Filesys) (s : St) (D : Nat) (ks : List Node) (left : List ExtentBlock)
    (last : ExtentBlock) : Prop where
  depth : s.root.iList.lTreeDepth = D + 1
  read : readKids s.dev.ebs (D + 1) s.root.iList = some ks
  wf : WfList fs (D + 1) true 0 uint32Max s.root.iList ks
  nodup : (treeBlocks (D + 1) ks).Nodup
  range : ∀ b ∈ treeBlocks (D + 1) ks, outOfRange fs b = false
  leaves : treeLeaves (D + 1) ks = left ++ [last]
  held : ∀ b ∈ treeBlocks (D + 1) ks, Held s b

theorem newBranch_mem (h : eb ∈ newBranch fs lastEb new) : eb.hBlkno ∈ new := by
  have := mem_map_of_mem (f := ExtentBlock.hBlkno) h
  rwa [newBranch, branchEbs_blknos, map_initEb_blknos] at this

section Pre

variable (hp : GrowPre fs s D ks left last)

include hp

theorem GrowPre.last_mem : last.hBlkno ∈ treeBlocks (D + 1) ks :=
  (readKids_leaf hp.read last (by rw [hp.leaves]; simp)).2

theorem GrowPre.fresh {b : Nat}
    (hb : some b ∈ s.allocs ∧ s.dev.used 0 b = false ∧ outOfRange fs b = false) :
    b ∉ treeBlocks (D + 1) ks := by
  intro hmem
  rcases hp.held b hmem with hu | ha
  · rw [hu] at hb
    cases hb.2.1
  · exact ha hb.1

theorem GrowPre.nodup_added (hn : new.Nodup) (hfree : ∀ b ∈ new, some b ∈ s.allocs ∧
      s.dev.used 0 b = false ∧ outOfRange fs b = false) :
    (treeBlocks (D + 1) ks ++ new.reverse).Nodup := by
  refine nodup_append.mpr ⟨hp.nodup, (reverse_perm new).nodup_iff.mpr hn, fun a ha b hb hab => ?_⟩
  exact hp.fresh (hfree b (mem_reverse.mp hb)) (hab ▸ ha)

theorem grown_root (hchain : LeafChain (left ++ [last]))
    (hroom : s.root.iList.HasRoom) (hlow : ∀ x ∈ edgeBlocks (D + 1) ks, ¬ x.hList.HasRoom)
    (h : BranchAdded fs s none last new top leaf t) :
    ∃ ks', Grown s.root ks (D + 1) leaf t ks' := by
  have hfresh : ∀ b ∈ new, b ∉ treeBlocks (D + 1) ks := fun b hb => hp.fresh (h.free b hb)
  have hframe : ∀ b ∈ treeBlocks (D + 1) ks, b ≠ last.hBlkno → t.dev.ebs b = s.dev.ebs b :=
    fun b hb hne => (h.frame b hne (nofun)).2 fun hn => hfresh b hn hb
  obtain ⟨k, hbr, hblocks⟩ := h.branch hp.depth fun eb heb =>
    (h.frame eb.hBlkno (fun he => hfresh _ (newBranch_mem heb) (he ▸ hp.last_mem))
      (nofun)).1 eb heb rfl
  have hlast := h.last_eb nofun
  obtain ⟨ks', hread, hh⟩ := hang_here hlast rfl rfl hp.wf hp.read hp.nodup hp.leaves hframe
      hbr hroom
  have hlist : t.root.iList = s.root.iList.push (branchRec (sumRightmostRec last.hList) top) := by
    rw [h.root]
    rfl
  rw [← hlist] at hread hh
  refine ⟨ks', hh.grown hp.depth hread ?_ hp.leaves hchain rfl rfl rfl ?_
    (newBranch_leaf h.leaf_eq) (.inl ⟨hp.depth.symm, ?_⟩)⟩
  · rw [hlist]
    exact hp.depth
  · rw [h.root]
  · obtain ⟨up, x, low, low', h1, h2, h3⟩ := hh.edge
    rw [length_eq_zero_iff] at h2
    subst h2
    rw [nil_append, edgeLists, cons_eq_cons] at h1
    obtain ⟨rfl, h1⟩ := h1
    refine ⟨[], _, low, _, low', _, by rw [edgeLists, h1]; rfl, hroom, ?_, h3, hh.blocks, ?_, ?_⟩
    · intro z hz
      rw [← h1] at hz
      obtain ⟨x, hx, rfl⟩ := mem_map.mp hz
      exact hlow x hx
    · rw [hblocks, length_reverse, h.depth, ← h1, length_map, edgeBlocks_length hp.wf]
      exact hp.depth
    · rw [hh.blocks, hblocks]
      exact hp.nodup_added h.nodup h.free

omit hp in
theorem hung_of_added {teb : ExtentBlock} (hp : GrowPre fs s (d + 1 + j) ks left last)
    (hteb : (edgeBlocks (d + 1 + j + 1) ks)[j]? = some teb) (hd : teb.hList.lTreeDepth = d + 1)
    (hroom : teb.hList.HasRoom) (h : BranchAdded fs s (some teb) last new top leaf t) :
    ∃ ks', readKids t.dev.ebs (d + 1 + j + 1) t.root.iList = some ks' ∧
      Hung (d + 1 + j + 1) (j + 1) s.root.iList ks t.root.iList ks' left
        { last with hNextLeafBlk := leaf.hBlkno } leaf
        (branchRec (sumRightmostRec last.hList) top) new.reverse ∧
      (treeBlocks (d + 1 + j + 1) ks').Nodup := by
  have hfresh : ∀ b ∈ new, b ∉ treeBlocks (d + 1 + j + 1) ks := fun b hb => hp.fresh (h.free b hb)
  have htmem : teb ∈ edgeBlocks (d + 1 + j + 1) ks := mem_of_getElem? hteb
  have htblk := edgeBlocks_mem hp.wf teb htmem
  have hne : teb.hBlkno ≠ last.hBlkno := by
    have hnd := (edge_sublist hp.wf hp.leaves).nodup hp.nodup
    exact (nodup_append.mp hnd).2.2 _ (mem_map_of_mem htmem) _ (by simp)
  have hframe : ∀ b ∈ treeBlocks (d + 1 + j + 1) ks, b ≠ last.hBlkno → b ≠ teb.hBlkno →
      t.dev.ebs b = s.dev.ebs b := by
    intro b hb h1 h2
    refine (h.frame b h1 fun eb he => ?_).2 fun hn => hfresh b hn hb
    cases he
    exact h2
  have hroot : t.root.iList = s.root.iList := by
    rw [h.root]
    rfl
  obtain ⟨k, hbr, hblocks⟩ := h.branch hd fun eb heb => by
    refine (h.frame eb.hBlkno ?_ fun _ he => ?_).1 eb heb rfl
    · exact fun he => hfresh _ (newBranch_mem heb) (he ▸ hp.last_mem)
    · cases he
      exact fun he => hfresh _ (newBranch_mem heb) (he ▸ htblk)
  have hlast := h.last_eb fun _ he => by
    cases he
    exact hne
  obtain ⟨ks', hread, hh⟩ := hang_below hlast rfl rfl
    (h.target_eb teb rfl) hbr hroom hp.wf hp.read hp.nodup hp.leaves hteb hframe
  rw [hroot, ← hblocks]
  refine ⟨ks', hread, hh, ?_⟩
  rw [hh.blocks, hblocks]
  exact hp.nodup_added h.nodup h.free

theorem grown_lowest (hchain : LeafChain (left ++ [last]))
    (he : edgeBlocks (D + 1) ks = e ++ [y]) (hroom : y.hList.HasRoom)
    (h : BranchAdded fs s (some y) last new top leaf t) :
    ∃ ks', Grown s.root ks (D + 1) leaf t ks' := by
  have hlen := edgeBlocks_length hp.wf
  rw [he, length_append, length_singleton] at hlen
  obtain ⟨j, rfl⟩ : ∃ j, D = 0 + 1 + j := ⟨e.length, by omega⟩
  have hej : e.length = j := by omega
  have hy : (edgeBlocks (0 + 1 + j + 1) ks)[j]? = some y := by
    rw [he, ← hej]
    simp
  have hd : y.hList.lTreeDepth = 0 + 1 := by
    rw [edgeBlocks_depth hp.wf hy]
    omega
  obtain ⟨ks', hread, hh, hnd⟩ := hung_of_added hp hy hd hroom h
  refine ⟨ks', hh.grown hp.depth hread ?_ hp.leaves hchain rfl rfl rfl ?_
    (newBranch_leaf h.leaf_eq) (.inl ⟨hp.depth.symm, ?_⟩)⟩
  · rw [h.root]
    exact hp.depth
  · rw [h.root]
  · obtain ⟨up, x, low, low', h1, h2, h3⟩ := hh.edge
    have hsplit : up ++ x :: low = (s.root.iList :: e.map ExtentBlock.hList) ++ [y.hList] := by
      rw [← h1, edgeLists, he, map_append]
      rfl
    obtain ⟨rfl, h4⟩ := append_inj hsplit (by simp [h2, hej])
    obtain ⟨rfl, rfl⟩ := cons_eq_cons.mp h4
    refine ⟨_, _, [], _, low', _, h1, hroom, fun _ h => absurd h not_mem_nil, h3, hh.blocks,
      ?_, hnd⟩
    rw [length_reverse, h.depth]
    exact hd

/-- A branch that was meant for a block with room and went to a full one: the full list
    now counts a record more than it has slots. -/
theorem lost_not_grown (he : edgeBlocks (D + 1) ks = e ++ [y])
    (hfull : ¬ y.hList.HasRoom) (h : BranchAdded fs s (some y) last new top leaf t) :
    ¬ Grown s.root ks depth leaf t ks' := by
  intro hg
  have hroot : t.root.iList = s.root.iList := by
    rw [h.root]
    rfl
  have hdepth : depth = D + 1 := by rw [← hg.depth_eq, hroot, hp.depth]
  have hread' := hg.read
  have hb := hg.bounded
  rw [hroot, hdepth] at hread' hb
  have hnd := (edge_sublist hp.wf hp.leaves).nodup hp.nodup
  rw [he, map_append, append_assoc, nodup_append] at hnd
  -- the blocks above `y` are as they were
  have hsame : ∀ x ∈ e, t.dev.ebs x.hBlkno = some x := by
    intro x hx
    have hxe : x ∈ edgeBlocks (D + 1) ks := by rw [he]; exact mem_append_left _ hx
    have hxb := edgeBlocks_mem hp.wf x hxe
    have hxn : x.hBlkno ∈ e.map ExtentBlock.hBlkno := mem_map_of_mem hx
    have hframe := h.frame x.hBlkno (hnd.2.2 _ hxn _ (by simp)) fun eb heb => by
      cases heb
      exact hnd.2.2 _ hxn _ (by simp)
    rw [hframe.2 fun hn => hp.fresh (h.free _ hn) hxb]
    exact edgeBlocks_dev hp.wf hp.read x hxe
  have := bounded_edge (h.target_eb y rfl) hp.wf hp.read hread' hb he hsame
  have hle : y.hList.lNextFreeRec + 1 ≤ y.hList.lCount := by
    rw [linkedList, ExtentList.lCount_push] at this
    exact this
  exact hfull hle

theorem findBranchTarget_eq : findBranchTarget fs s = some (.ok
      (!((edgeBlocks (D + 1) ks).any fun eb => decide eb.hList.HasRoom) &&
          s.root.iList.lNextFreeRec == s.root.iList.lCount,
        if (edgeBlocks (D + 1) ks).any fun eb => decide eb.hList.HasRoom then
          (edgeBlocks (D + 1) ks).getLast? else none), s) := by
  have hloop := findBranchTargetLoop_eq none false hp.wf hp.read hp.range (le_refl _)
  rw [findBranchTarget, bind_ok (get_run s), hp.depth, bind_ok hloop]
  simp

end Pre

/-! ### One more level -/

/-- The block `shift_tree_depth` moves the root's records to. -/
def shiftedEb (fs : Filesys) (el : ExtentList) (blkno : Nat) : ExtentBlock :=
  { initEb fs blkno with
    hList := ⟨el.lTreeDepth, el.lNextFreeRec, el.lRecs ++
      (initEb fs blkno).hList.lRecs.drop el.lCount⟩ }

def shiftedList (fs : Filesys) (el : ExtentList) (blkno : Nat) : ExtentList :=
  ⟨el.lTreeDepth + 1, 1, (List.replicate el.lCount ExtentRec.zero).set 0
    ((branchRec 0 blkno).setIntClusters (sumRightmostRec (shiftedEb fs el blkno).hList))⟩

/-- What `shift_tree_depth` leaves behind when it succeeds. -/
structure Shifted (fs : Filesys) (s : St) (blkno : Nat) (t : St) : Prop where
  full : s.root.iList.lNextFreeRec = s.root.iList.lCount
  alloc : s.allocs.head? = some (some blkno)
  free : s.dev.used 0 blkno = false
  range : outOfRange fs blkno = false
  allocs : t.allocs = s.allocs.tail
  used : ∀ b, t.dev.used 0 b = if b = blkno then true else s.dev.used 0 b
  root : t.root = { s.root with
    iList := shiftedList fs s.root.iList blkno
    iLastEbBlk := if s.root.iList.lTreeDepth = 0 then blkno else s.root.iLastEbBlk }
  ebs : ∀ b, t.dev.ebs b =
    if b = blkno then some (shiftedEb fs s.root.iList blkno) else s.dev.ebs b

theorem shiftTreeDepth_inv (h : shiftTreeDepth fs s = some (.ok eb, t)) :
    ∃ blkno, eb = shiftedEb fs s.root.iList blkno ∧ Shifted fs s blkno t := by
  rw [shiftTreeDepth, bind_ok (get_run s)] at h
  by_cases hfull : s.root.iList.lNextFreeRec = s.root.iList.lCount
  swap
  · simp only [ne_eq, hfull, not_false_eq_true, if_true] at h
    cases h
  simp only [ne_eq, hfull, not_true_eq_false, if_false] at h
  obtain ⟨⟨blkno, r⟩, u, hnew, h1⟩ := bind_eq_ok h
  cases r with
  | error e => cases h1
  | ok a =>
    obtain ⟨_, u', hof, h2⟩ := bind_eq_ok h1
    cases hof
    obtain ⟨buf, v, hread, h3⟩ := bind_eq_ok h2
    obtain ⟨rfl, hbuf, -⟩ := readExtentBlock_inv hread
    obtain ⟨_, w, hmod, h4⟩ := bind_eq_ok h3
    cases hmod
    obtain ⟨_, x, hwrite, h5⟩ := bind_eq_ok h4
    cases h5
    obtain ⟨halloc, hfree, hrange, rfl⟩ := newExtentBlock_inv hnew
    obtain ⟨-, rfl⟩ := writeExtentBlock_inv hwrite
    obtain rfl : initEb fs blkno = buf := Option.some.inj ((if_pos rfl).symm.trans hbuf)
    refine ⟨blkno, ?_, hfull, halloc, hfree, hrange, rfl, ?_, ?_, ?_⟩
    · rw [shiftedEb, hfull]
    · simp [St.commit, Device.setEb, Device.setUsed, St.advance]
    · simp only [St.commit, St.advance, shiftedList, shiftedEb, hfull]
    · intro b
      simp only [St.commit, St.advance, Device.setEb, Device.setUsed, shiftedEb, hfull]
      split
      · rfl
      · rfl

section Shifted

variable {el : ExtentList} {blkno : Nat}

theorem shiftedEb_live (fs : Filesys) (blkno : Nat) (hfull : el.lNextFreeRec = el.lCount) :
    (shiftedEb fs el blkno).hList.live = el.live := by
  simp only [shiftedEb, ExtentList.live, hfull, ExtentList.lCount]
  rw [take_left, take_length]

theorem shiftedEb_lCount (blkno : Nat) (hle : el.lCount ≤ extentRecsPerInode fs) :
    (shiftedEb fs el blkno).hList.lCount = extentRecsPerEb fs := by
  have := extentRecsPerInode_lt fs
  simp only [shiftedEb, ExtentList.lCount, initEb, length_append, length_drop,
    length_replicate] at hle ⊢
  omega

theorem shiftedEb_room (blkno : Nat) (hfull : el.lNextFreeRec = el.lCount)
    (hle : el.lCount ≤ extentRecsPerInode fs) : (shiftedEb fs el blkno).hList.HasRoom := by
  have := extentRecsPerInode_lt fs
  rw [ExtentList.HasRoom, shiftedEb_lCount blkno hle]
  show el.lNextFreeRec < _
  omega

theorem shiftedList_live (hpos : 0 < el.lCount) :
    (shiftedList fs el blkno).live = [(branchRec 0 blkno).setIntClusters
      (sumRightmostRec (shiftedEb fs el blkno).hList)] := by
  obtain ⟨m, hm⟩ := Nat.exists_eq_succ_of_ne_zero (Nat.pos_iff_ne_zero.mp hpos)
  simp [shiftedList, ExtentList.live, hm, replicate_succ]

theorem shifted_wf (hw : WfList fs (D + 1) true 0 uint32Max el ks)
    (hfull : el.lNextFreeRec = el.lCount) (hle : el.lCount ≤ extentRecsPerInode fs)
    (hpos : 0 < el.lCount) : WfList fs (D + 2) true 0 uint32Max (shiftedList fs el blkno)
      [.mk (shiftedEb fs el blkno) ks] := by
  have hlive := shiftedEb_live fs blkno hfull
  have hcount := shiftedEb_lCount blkno hle
  obtain ⟨rs, r, -, -, hlast, -⟩ := hw.edge
  have ht := hw.1.tiled
  rw [hlast, tiled_append] at ht
  obtain ⟨hrs, hr1, hr2, hr3⟩ := ht
  have hend : 0 + (rs.map ExtentRec.eIntClusters).sum + r.eIntClusters ≤ uint32Max := hr3
  have hsum : sumRightmostRec (shiftedEb fs el blkno).hList = r.eCpos + r.eIntClusters := by
    have hnf : (shiftedEb fs el blkno).hList.lNextFreeRec = rs.length + 1 := by
      show el.lNextFreeRec = _
      rw [← ExtentList.live_length hw.1.le, hlast]
      simp
    have hrec : (shiftedEb fs el blkno).hList.recAt
        ((shiftedEb fs el blkno).hList.lNextFreeRec - 1) = r := by
      apply ExtentList.recAt_live
      rw [hlive, hlast, hnf]
      simp
    have hdepth : (shiftedEb fs el blkno).hList.lTreeDepth = D + 1 := hw.depth
    rw [sumRightmostRec, hrec, hdepth, recClusters_succ, addW_32_eq]
    unfold uint32Max at hend
    omega
  have hsum32 : r.eCpos + r.eIntClusters ≤ uint32Max := by omega
  have hint : ((branchRec 0 blkno).setIntClusters (sumRightmostRec
      (shiftedEb fs el blkno).hList)).eIntClusters = r.eCpos + r.eIntClusters := by
    rw [hsum]
    apply ExtentRec.eIntClusters_setIntClusters
    unfold uint32Max at hsum32
    omega
  refine ⟨⟨?_, ?_, ?_, ?_, ?_⟩, nofun, ?_⟩
  · show el.lTreeDepth + 1 = _
    rw [hw.depth]
  · simp only [shiftedList, ExtentList.lCount, length_set, length_replicate]
    exact hpos
  · rw [shiftedList_live hpos]
    simp
  · intro x hx
    rw [shiftedList_live hpos, mem_singleton] at hx
    subst hx
    exact ⟨(by decide : 0 < 4294967296), Nat.mod_lt _ (by decide), Nat.mod_lt _ (by decide),
      Nat.mod_lt _ (by decide)⟩
  · rw [shiftedList_live hpos]
    refine ⟨rfl, ?_, ?_⟩
    · omega
    · show 0 + _ ≤ uint32Max
      omega
  · rw [shiftedList_live hpos]
    refine ⟨hcount, ?_⟩
    rw [hint]
    refine ⟨⟨hw.depth, ?_, ?_, ?_, ?_⟩, nofun, ?_⟩
    · exact le_of_lt (shiftedEb_room blkno hfull hle)
    · rw [Node.eb_mk, hlive]
      exact hw.1.ne
    · rw [Node.eb_mk, hlive]
      exact hw.1.fits
    · rw [Node.eb_mk, hlive, hlast, tiled_append]
      refine ⟨hrs, hr1, hr2, ?_⟩
      show 0 + (rs.map ExtentRec.eIntClusters).sum + r.eIntClusters ≤ 0 + (r.eCpos + r.eIntClusters)
      omega
    · rw [Node.eb_mk, hlive]
      exact hw.2.2

end Shifted

theorem Shifted.growPre (h : Shifted fs s blkno t) (hp : GrowPre fs s D ks left last)
    (hle : s.root.iList.lCount ≤ extentRecsPerInode fs) (hpos : 0 < s.root.iList.lCount) :
    GrowPre fs t (D + 1) [.mk (shiftedEb fs s.root.iList blkno) ks] left last := by
  have hlist : t.root.iList = shiftedList fs s.root.iList blkno := by rw [h.root]
  have hmem : some blkno ∈ s.allocs := mem_of_mem_head? h.alloc
  have hfresh : blkno ∉ treeBlocks (D + 1) ks := hp.fresh ⟨hmem, h.free, h.range⟩
  have hblocks : treeBlocks (D + 1 + 1) [.mk (shiftedEb fs s.root.iList blkno) ks] =
      blkno :: treeBlocks (D + 1) ks := by
    rw [treeBlocks_succ, flatMap_singleton]
    rfl
  refine ⟨?_, ?_, ?_, ?_, ?_, ?_, ?_⟩
  · rw [hlist]
    show s.root.iList.lTreeDepth + 1 = _
    rw [hp.depth]
  · rw [hlist, readKids_succ, shiftedList_live hpos]
    refine .cons ⟨?_, rfl, ?_⟩ .nil
    · exact (h.ebs blkno).trans (if_pos rfl)
    · rw [Node.eb_mk, readKids_congr (shiftedEb_live fs blkno h.full)]
      refine readKids_frame hp.read fun b hb => ?_
      rw [h.ebs, if_neg]
      rintro rfl
      exact hfresh hb
  · rw [hlist]
    exact shifted_wf hp.wf h.full hle hpos
  · rw [hblocks]
    exact nodup_cons.mpr ⟨hfresh, hp.nodup⟩
  · rw [hblocks]
    exact forall_mem_cons.mpr ⟨h.range, hp.range⟩
  · rw [treeLeaves_succ, flatMap_singleton]
    exact hp.leaves
  · rw [hblocks]
    refine forall_mem_cons.mpr ⟨.inl (by rw [h.used, if_pos rfl]), fun b hb => ?_⟩
    rcases hp.held b hb with hu | ha
    · left
      rw [h.used]
      split
      · rfl
      · exact hu
    · right
      rw [h.allocs]
      exact fun hm => ha (mem_of_mem_tail hm)

theorem grown_shifted {u : St} (h : Shifted fs s blkno u) (hp : GrowPre fs s D ks left last)
    (hle : s.root.iList.lCount ≤ extentRecsPerInode fs) (hpos : 0 < s.root.iList.lCount)
    (hchain : LeafChain (left ++ [last])) (hlow : ∀ x ∈ edgeBlocks (D + 1) ks, ¬ x.hList.HasRoom)
    (hadd : BranchAdded fs u (some (shiftedEb fs s.root.iList blkno)) last new top leaf t) :
    ∃ ks', Grown s.root ks (D + 2) leaf t ks' := by
  have hpu := h.growPre hp hle hpos
  obtain ⟨ks', hread, hh, -⟩ := hung_of_added (j := 0) hpu rfl hp.depth
    (shiftedEb_room blkno h.full hle) hadd
  refine ⟨ks', hh.grown hp.depth hread ?_ hp.leaves hchain rfl rfl rfl ?_
    (newBranch_leaf hadd.leaf_eq) (.inr ⟨?_, ?_⟩)⟩
  · rw [hadd.root]
    exact hpu.depth
  · rw [hadd.root]
  · intro x hx
    rw [hp.depth] at hx
    rcases mem_cons.mp hx with rfl | hx
    · have := h.full
      unfold ExtentList.HasRoom
      omega
    · obtain ⟨z, hz, rfl⟩ := mem_map.mp hx
      exact hlow z hz
  · rw [hp.depth]

theorem grown_first (h : Shifted fs s blkno t) (hd : s.root.iList.lTreeDepth = 0)
    (hle : s.root.iList.lCount ≤ extentRecsPerInode fs) (hpos : 0 < s.root.iList.lCount) :
    Grown s.root [] 1 (shiftedEb fs s.root.iList blkno) t
      [.mk (shiftedEb fs s.root.iList blkno) []] := by
  have hlist : t.root.iList = shiftedList fs s.root.iList blkno := by rw [h.root]
  have hroom := shiftedEb_room blkno h.full hle
  refine ⟨?_, ?_, hroom, rfl, ?_, rfl, ⟨?_, fun k hk => ?_⟩, ?_, .inr ⟨?_, ?_⟩⟩
  · rw [hlist, readKids_succ, shiftedList_live hpos]
    refine .cons ⟨?_, rfl, rfl⟩ .nil
    exact (h.ebs blkno).trans (if_pos rfl)
  · rw [hlist]
    show s.root.iList.lTreeDepth + 1 = 1
    omega
  · rw [h.root]
    simp only [hd, if_true]
    rfl
  · rw [hlist]
    simp only [shiftedList, ExtentList.lCount, length_set, length_replicate]
    exact hpos
  · rw [mem_singleton] at hk
    subst hk
    exact le_of_lt hroom
  · rw [hd, treeRecs_eq_leaves, treeLeaves, treeRecs]
    simp [ExtentList.nonempty, shiftedEb_live fs blkno h.full]
  · rw [hd]
    intro x hx
    cases hx
  · rw [hd]

/-! ### The whole function -/

section GrowTree

variable (hread : readKids s.dev.ebs s.root.iList.lTreeDepth s.root.iList = some ks)
  (hw : WfRoot fs s.root ks) (hheld : ∀ b ∈ treeBlocks s.root.iList.lTreeDepth ks, Held s b)
  (hfull : RightmostFull s.root ks lastEb)

include hread hw hheld hfull

theorem growPre_of_root (hd : s.root.iList.lTreeDepth = D + 1) :
    ∃ left, GrowPre fs s D ks left lastEb ∧ LeafChain (left ++ [lastEb]) := by
  have hwl := hw.node (by omega)
  have hnd := hw.nodup
  have hr := hw.range
  have hc := hw.chain
  simp only [RightmostFull, hd, Nat.succ_ne_zero, if_false] at hfull
  rw [hd] at hwl hnd hr hc hread hheld
  obtain ⟨left, hl⟩ := getLast?_eq_some_iff.mp hfull.1
  rw [hl] at hc
  exact ⟨left, ⟨hd, hread, hwl, hnd, hr, hl, hheld⟩, hc⟩

variable (hrun : growTree fs lastEb s = some (.ok (depth, last), t))

include hrun

omit hread hheld hfull hw in
theorem growTree_below (hp : GrowPre fs s D ks left lastEb)
    (hany : (edgeBlocks (D + 1) ks).any fun eb => decide eb.hList.HasRoom)
    (he : edgeBlocks (D + 1) ks = e ++ [y]) :
    depth = D + 1 ∧ ∃ new top, BranchAdded fs s (some y) lastEb new top last t := by
  rw [growTree, bind_ok (get_run s), bind_ok (findBranchTarget_eq hp)] at hrun
  simp only [hany, Bool.not_true, Bool.false_and, Bool.false_eq_true, if_false, if_true] at hrun
  rw [he, getLast?_concat] at hrun
  obtain ⟨leaf, u, hadd, h1⟩ := bind_eq_ok hrun
  cases h1
  exact ⟨hp.depth, addBranch_inv hadd⟩

/-- If the lowest block of the right edge is full but one above it has room, the branch
    goes to the full one. -/
theorem growTree_lost (hlost : LostTarget s.root.iList.lTreeDepth ks) (ks' : List Node) :
    ¬ Grown s.root ks depth last t ks' := by
  cases hd : s.root.iList.lTreeDepth with
  | zero =>
    rw [hd] at hlost
    obtain ⟨⟨x, hx, -⟩, -⟩ := hlost
    cases hx
  | succ D =>
    obtain ⟨left, hp, -⟩ := growPre_of_root hread hw hheld hfull hd
    rw [hd] at hlost
    obtain ⟨⟨x, hx, hxroom⟩, y, hlast, hyfull⟩ := hlost
    have hany : ((edgeBlocks (D + 1) ks).any fun eb => decide eb.hList.HasRoom) = true :=
      any_eq_true.mpr ⟨x, hx, decide_eq_true hxroom⟩
    obtain ⟨e, he⟩ := getLast?_eq_some_iff.mp hlast
    obtain ⟨-, new, top, hb⟩ := growTree_below hrun hp hany he
    exact lost_not_grown hp he hyfull hb

/-- Otherwise the branch goes to the lowest list with room, or the tree gets one level deeper. -/
theorem growTree_grown (hlost : ¬ LostTarget s.root.iList.lTreeDepth ks) :
    ∃ ks', Grown s.root ks depth last t ks' := by
  have hgrow := hrun
  rw [growTree, bind_ok (get_run s)] at hrun
  cases hd : s.root.iList.lTreeDepth with
  | zero =>
    -- the root list is the leaf
    simp only [RightmostFull, hd, if_true] at hfull
    have hle := (hw.leaf hd).le
    have hcount : s.root.iList.lNextFreeRec = s.root.iList.lCount := by
      unfold ExtentList.HasRoom at hfull
      omega
    have hfind : findBranchTarget fs s = some (.ok (true, none), s) := by
      simp [findBranchTarget, bind_run, hd, findBranchTargetLoop, hcount]
    rw [bind_ok hfind] at hrun
    obtain ⟨eb, u, hshift, h1⟩ := bind_eq_ok hrun
    obtain ⟨blkno, rfl, hs⟩ := shiftTreeDepth_inv hshift
    rw [hd] at h1
    cases h1
    have hks : ks = [] := by
      rw [hd] at hread
      exact (Option.some.inj hread).symm
    rw [hks]
    exact ⟨_, grown_first hs hd hw.count_le hw.count_pos⟩
  | succ D =>
    obtain ⟨left, hp, hchain⟩ := growPre_of_root hread hw hheld hfull hd
    rw [bind_ok (findBranchTarget_eq hp)] at hrun
    by_cases hany : (edgeBlocks (D + 1) ks).any fun eb => decide eb.hList.HasRoom
    · -- a block of the edge has room, so the lowest one has
      obtain ⟨x, hx, hxroom⟩ := any_eq_true.mp hany
      rw [decide_eq_true_eq] at hxroom
      rcases eq_nil_or_concat' (edgeBlocks (D + 1) ks) with h0 | ⟨e, y, he⟩
      · rw [h0] at hx
        cases hx
      have hyroom : y.hList.HasRoom := by
        by_contra hy
        rw [hd] at hlost
        exact hlost ⟨⟨x, hx, hxroom⟩, y, he ▸ getLast?_concat, hy⟩
      obtain ⟨rfl, new, top, hb⟩ := growTree_below hgrow hp hany he
      exact grown_lowest hp hchain he hyroom hb
    · -- no block has: the root, or a new level
      have hlow : ∀ x ∈ edgeBlocks (D + 1) ks, ¬ x.hList.HasRoom := by
        intro x hx hroom
        exact hany (any_eq_true.mpr ⟨x, hx, decide_eq_true hroom⟩)
      simp only [hany, Bool.not_false, Bool.true_and, Bool.false_eq_true, if_false] at hrun
      by_cases hcount : s.root.iList.lNextFreeRec = s.root.iList.lCount
      · rw [if_pos (by simpa using hcount)] at hrun
        obtain ⟨eb, u, hshift, h1⟩ := bind_eq_ok hrun
        obtain ⟨blkno, rfl, hs⟩ := shiftTreeDepth_inv hshift
        rw [hd] at h1
        obtain ⟨leaf, v, hadd, h2⟩ := bind_eq_ok h1
        cases h2
        obtain ⟨new, top, hb⟩ := addBranch_inv hadd
        exact grown_shifted hs hp hw.count_le hw.count_pos hchain hlow hb
      · rw [if_neg (by simpa using hcount)] at hrun
        obtain ⟨leaf, u, hadd, h1⟩ := bind_eq_ok hrun
        cases h1
        obtain ⟨new, top, hb⟩ := addBranch_inv hadd
        have hle := hp.wf.le_count
        rw [hd]
        exact grown_root hp hchain (by unfold ExtentList.HasRoom; omega) hlow hb

end GrowTree

/-- **`ocfs2_grow_tree`** that returns 0 on a tree with a full rightmost leaf has grown the
    tree as it should, unless the walk for the target lost it. -/
theorem growTree_correct_iff
    (hread : readKids s.dev.ebs s.root.iList.lTreeDepth s.root.iList = some ks)
    (hw : WfRoot fs s.root ks) (hheld : ∀ b ∈ treeBlocks s.root.iList.lTreeDepth ks, Held s b)
    (hfull : RightmostFull s.root ks lastEb)
    (hrun : growTree fs lastEb s = some (.ok (depth, last), t)) :
    (∃ ks', Grown s.root ks depth last t ks') ↔ ¬ LostTarget s.root.iList.lTreeDepth ks :=
  ⟨fun ⟨ks', hg⟩ hl => growTree_lost hread hw hheld hfull hrun hl ks' hg,
    growTree_grown hread hw hheld hfull hrun⟩

/-! ### A tree whose target is lost -/

/-- Full leaves that map every other cluster, from block `blkno` and cluster `cpos` on. -/
def fullLeaves (blkno cpos : Nat) : Nat → List ExtentBlock
  | 0 => []
  | n + 1 =>
    ⟨0, blkno, if n = 0 then 0 else blkno + 1,
      listOf 0 28 (sparseRecs cpos (8000 + 8 * cpos) 28)⟩ :: fullLeaves (blkno + 1) (cpos + 64) n

def leafRecs (blkno cpos : Nat) : Nat → List ExtentRec
  | 0 => []
  | n + 1 => ⟨cpos, 64, 0, 0, blkno⟩ :: leafRecs (blkno + 1) (cpos + 64) n

def roomyEb : ExtentBlock := ⟨0, 10, 0, listOf 2 28 [⟨0, 1792, 0, 0, 11⟩]⟩

def fullEb : ExtentBlock := ⟨0, 11, 0, listOf 1 28 (leafRecs 100 0 28)⟩

/-- Below the root a block with room, below that a full one with 28 full leaves. -/
def lostInode : Dinode := smallInode 127 (listOf 3 19 [⟨0, 1792, 0, 0, 10⟩])

def lostKids : List Node :=
  [.mk roomyEb [.mk fullEb ((fullLeaves 100 0 28).map (Node.mk · []))]]

def lostSt : St := smallSt (roomyEb :: fullEb :: fullLeaves 100 0 28) lostInode [some 200]

def lostLast : ExtentBlock := ⟨0, 127, 0, listOf 0 28 (sparseRecs 1728 21824 28)⟩

theorem lost_wf : readKids lostSt.dev.ebs 3 lostInode.iList = some lostKids ∧
    WfRoot smallFs lostInode lostKids :=
  ⟨rfl, by decide +kernel⟩

theorem lost_held : ∀ b ∈ treeBlocks 3 lostKids, Held lostSt b := by
  have h : ∀ b ∈ treeBlocks 3 lostKids, lostSt.dev.used 0 b = true := by decide +kernel
  exact fun b hb => .inl (h b hb)

theorem lost_full : RightmostFull lostInode lostKids lostLast := ⟨rfl, by decide⟩

theorem growTree_overflows : (readKids lostSt.dev.ebs 3 lostInode.iList = some lostKids ∧
      WfRoot smallFs lostInode lostKids ∧ (∀ b ∈ treeBlocks 3 lostKids, Held lostSt b) ∧
      RightmostFull lostInode lostKids lostLast) ∧
    ∃ depth last t, growTree smallFs lostLast lostSt = some (.ok (depth, last), t) ∧
      ¬ ∃ ks', Grown lostInode lostKids depth last t ks' := by
  refine ⟨⟨lost_wf.1, lost_wf.2, lost_held, lost_full⟩, ?_⟩
  obtain ⟨⟨depth, last⟩, t, hrun⟩ := Prog.returns_true
    (m := growTree smallFs lostLast) (s := lostSt) (by decide +kernel)
  refine ⟨depth, last, t, hrun, fun ⟨ks', hg⟩ => ?_⟩
  exact growTree_lost lost_wf.1 lost_wf.2 lost_held lost_full hrun
    ⟨⟨roomyEb, List.mem_cons_self .., by decide⟩, fullEb, rfl, by decide⟩ ks' hg

/-! ### A tree that gets a new level -/

/-- A full root over 19 full leaves. -/
def fullInode : Dinode := smallInode 118 (listOf 1 19 (leafRecs 100 0 19))

def fullKids : List Node := (fullLeaves 100 0 19).map (Node.mk · [])

def fullSt : St := smallSt (fullLeaves 100 0 19) fullInode [some 200, some 201]

def fullLast : ExtentBlock := ⟨0, 118, 0, listOf 0 28 (sparseRecs 1152 17216 28)⟩

theorem growTree_correct_full : ∃ depth last t ks',
    growTree smallFs fullLast fullSt = some (.ok (depth, last), t) ∧
      Grown fullInode fullKids depth last t ks' := by
  obtain ⟨⟨depth, last⟩, t, hrun⟩ := Prog.returns_true
    (m := growTree smallFs fullLast) (s := fullSt) (by decide +kernel)
  have hread : readKids fullSt.dev.ebs 1 fullInode.iList = some fullKids := rfl
  have hused : ∀ b ∈ treeBlocks 1 fullKids, fullSt.dev.used 0 b = true := by decide +kernel
  obtain ⟨ks', hg⟩ := (growTree_correct_iff hread (by decide +kernel)
    (fun b hb => .inl (hused b hb)) ⟨rfl, by decide⟩ hrun).mpr fun h => by
      -- the root has no block between it and the leaves
      obtain ⟨⟨x, hx, -⟩, -⟩ := h
      cases hx
  exact ⟨depth, last, t, ks', hrun, hg⟩

end Ocfs2Tools
