import Ocfs2Tools.ExtentTree.WellFormed
import Ocfs2Tools.InodeScan.Model

/-!
# What a scan returns

Between two calls the cursors describe what is still to be returned: the rest of the buffer
and of the piece it was read from, the pieces behind it, and the groups, chains and
allocators behind those. Each step of the code keeps that list, or takes its first block.
-/

namespace Ocfs2Tools.InodeScan

open List Prog

variable {env : Env} {fs : Filesys} {s : Scan} {g : GroupDesc} {r : ExtentRec} {bs : List Nat}

/-! ### Places in a group -/

theorem clustersToBlocks_add (fs : Filesys) (a b : Nat) :
    clustersToBlocks fs (a + b) = clustersToBlocks fs a + clustersToBlocks fs b := by
  simp [clustersToBlocks, Nat.add_mul]

theorem clustersToBlocks_pos {n : Nat} (fs : Filesys) (h : 0 < n) : 0 < clustersToBlocks fs n :=
  Nat.mul_pos h fs.bpc_pos

theorem le_clustersToBlocks (fs : Filesys) (n : Nat) : n ≤ clustersToBlocks fs n :=
  Nat.le_mul_of_pos_right n fs.bpc_pos

theorem Abut.le : ∀ {rs c e}, Abut c rs e → c ≤ e
  | [], _, _, h => le_of_eq h
  | _ :: _, _, _, h => le_trans (Nat.le_add_right _ _) h.2.2.2.le

theorem Abut.lt {rs : List ExtentRec} {c e : Nat} (h : Abut c (r :: rs) e) : c < e := by
  have := h.2.1
  have := h.2.2.2.le
  omega

/-- The place at offset `o` of a group, with record `k` at hand: `left` blocks are left of
    the piece, and the pieces `rs` lie behind it. -/
inductive PosOk (fs : Filesys) (g : GroupDesc) (k o left : Nat) : List ExtentRec → Prop where
  | whole (h : g.bgRecs = []) (hend : o + left = g.bgBits) : PosOk fs g k o left []
  | piece (r : ExtentRec) (rs : List ExtentRec) (e : Nat) (h : g.bgRecs.drop k = r :: rs)
    (hend : o + left = clustersToBlocks fs (r.eCpos + r.eLeafClusters))
    (habut : Abut (r.eCpos + r.eLeafClusters) rs e) (hbits : g.bgBits = clustersToBlocks fs e) :
    PosOk fs g k o left rs

variable {k o left : Nat} {rs : List ExtentRec}

theorem PosOk.le (h : PosOk fs g k o left rs) : o + left ≤ g.bgBits := by
  cases h with
  | whole _ hend => exact le_of_eq hend
  | piece r _ e _ hend habut hbits =>
    rw [hend, hbits]
    exact Nat.mul_le_mul_right _ habut.le

theorem PosOk.done (h : PosOk fs g k o left rs) (ho : o = g.bgBits) : left = 0 ∧ rs = [] := by
  have hle := h.le
  refine ⟨by omega, ?_⟩
  cases h with
  | whole => rfl
  | piece r _ e _ hend habut hbits =>
    cases rs with
    | nil => rfl
    | cons r' rs =>
      have : clustersToBlocks fs (r.eCpos + r.eLeafClusters) < clustersToBlocks fs e :=
        Nat.mul_lt_mul_of_pos_right habut.lt fs.bpc_pos
      omega

/-- The blocks from a place on, if the next one of the piece is `blkno`. -/
def blocksFrom (fs : Filesys) (blkno left : Nat) (rs : List ExtentRec) : List Nat :=
  List.range' blkno left ++ rs.flatMap (recBlocks fs)

theorem GroupOk.start (h : GroupOk fs g) : ∃ left rs, PosOk fs g 0 1 left rs ∧
    (groupBlocks fs g).tail = blocksFrom fs (g.bgBlkno + 1) left rs := by
  have hbits := h.bits
  by_cases hrecs : g.bgRecs = []
  · refine ⟨g.bgBits - 1, [], .whole hrecs (by omega), ?_⟩
    rw [groupBlocks, if_pos hrecs, tail_range', blocksFrom, flatMap_nil, append_nil]
  · obtain ⟨hfirst, e, habut, hend⟩ := h.recs hrecs
    cases hg : g.bgRecs with
    | nil => exact absurd hg hrecs
    | cons r rs =>
      rw [hg] at habut hfirst
      obtain ⟨hcpos, hlen, -, hrest⟩ := habut
      have hpos := clustersToBlocks_pos fs hlen
      refine ⟨clustersToBlocks fs r.eLeafClusters - 1, rs, .piece r rs e hg ?_ ?_ hend, ?_⟩
      · rw [hcpos, Nat.zero_add]
        omega
      · rw [hcpos]
        exact hrest
      · obtain ⟨n, hn⟩ : ∃ n, clustersToBlocks fs r.eLeafClusters = n + 1 :=
          ⟨clustersToBlocks fs r.eLeafClusters - 1, by omega⟩
        rw [groupBlocks, hg, flatMap_cons, recBlocks, hn, ← hfirst]
        rfl

theorem drop_eq_cons {α : Type} {l rest : List α} {i : Nat} {a : α} (h : l.drop i = a :: rest) :
    l[i]? = some a ∧ l.drop (i + 1) = rest := by
  refine ⟨?_, ?_⟩
  · rw [← head?_drop, h]
    rfl
  · rw [← tail_drop, h, tail_cons]

theorem getD_of_drop (h : g.bgRecs.drop k = r :: rs) :
    g.bgRecs.getD k ExtentRec.zero = r ∧ k ≠ g.bgRecs.length ∧ g.bgRecs.drop (k + 1) = rs := by
  obtain ⟨hk, hdrop⟩ := drop_eq_cons h
  refine ⟨by rw [getD_eq_getElem?_getD, hk]; rfl, ?_, hdrop⟩
  rintro rfl
  simp at hk

theorem readableBlocks_spec (hg : GroupOk env.fs g)
    (hpos : PosOk env.fs g s.curDiscontigRec s.bOffset left rs) (hlt : s.bOffset < g.bgBits)
    (hbuf : 0 < s.bufferBlocks) :
    ∃ (m k blkno left' : Nat) (rs' : List ExtentRec), 0 < m ∧ readableBlocks env g s =
        some (.ok (m : Int), { s with curDiscontigRec := k, curBlkno := blkno }) ∧
      PosOk env.fs g k (s.bOffset + m) left' rs' ∧
      blocksFrom env.fs s.curBlkno left rs = blocksFrom env.fs blkno (m + left') rs' := by
  rw [readableBlocks, bind_ok (get_run s)]
  have hsmall := hg.bits_le
  unfold maxBgBitmapSize at hsmall
  have hadd : min left s.bufferBlocks + (left - min left s.bufferBlocks) = left :=
    Nat.add_sub_cancel' (min_le_left _ _)
  cases hpos with
  | whole h hend =>
    have hmin : min ((g.bgBits : Int) - s.bOffset) s.bufferBlocks =
        (min left s.bufferBlocks : Nat) := by omega
    rw [if_pos h, hmin]
    exact ⟨_, _, _, left - min left s.bufferBlocks, [], by omega, rfl, .whole h (by omega),
      by rw [hadd]⟩
  | piece r _ e h hend habut hbits =>
    have hne : g.bgRecs ≠ [] := by
      rintro h0
      rw [h0, drop_nil] at h
      cases h
    obtain ⟨hr, hk, hdrop⟩ := getD_of_drop h
    have hfit : r.eCpos + r.eLeafClusters < 4294967296 := by
      have h1 := habut.le
      have h2 := le_clustersToBlocks env.fs e
      omega
    rw [if_neg hne, if_neg hk, hr, addW_32_eq hfit, ← hend, if_neg (by omega)]
    by_cases hleft : left = 0
    · -- the piece at hand has been read, so there is one behind it
      cases rs with
      | nil =>
        have : r.eCpos + r.eLeafClusters = e := habut
        rw [this] at hend
        omega
      | cons r' rs =>
        obtain ⟨hr', -, -⟩ := getD_of_drop hdrop
        obtain ⟨hcpos, hlen, -, hrest⟩ := habut
        have hpos := clustersToBlocks_pos env.fs hlen
        have hmin : min (clustersToBlocks env.fs r'.eLeafClusters : Int) s.bufferBlocks =
            (min (clustersToBlocks env.fs r'.eLeafClusters) s.bufferBlocks : Nat) := by
          omega
        rw [if_neg (by omega), hr', hmin]
        refine ⟨_, _, _, clustersToBlocks env.fs r'.eLeafClusters -
          min (clustersToBlocks env.fs r'.eLeafClusters) s.bufferBlocks, rs, by omega, rfl,
          .piece r' rs e hdrop ?_ (by rw [hcpos]; exact hrest) hbits, ?_⟩
        · rw [hcpos, clustersToBlocks_add]
          omega
        · rw [Nat.add_sub_cancel' (min_le_left _ _), hleft]
          simp [blocksFrom, recBlocks]
    · have hmin : min ((((s.bOffset + left : Nat) : Int)) - s.bOffset) s.bufferBlocks =
          (min left s.bufferBlocks : Nat) := by omega
      rw [if_pos (by omega), hmin]
      exact ⟨_, _, _, left - min left s.bufferBlocks, rs, by omega, rfl,
        .piece r rs e h (by omega) habut hbits, by rw [hadd]⟩

/-! ### Places in a scan -/

def chainBits (chains : List (List GroupDesc)) : Nat := (chains.map totalBits).sum

variable {gs : List GroupDesc} {chains : List (List GroupDesc)}
  {layout : List (List (List GroupDesc))} {n : Nat}

/-- The chains and allocators behind the ones at hand. -/
structure Outer (env : Env) (s : Scan) (chains : List (List GroupDesc))
    (layout : List (List (List GroupDesc))) : Prop where
  alloc : ∃ a, s.curInodeAlloc = some a ∧ List.Forall₂ (ChainOk env)
    (a.clRecs.drop s.nextRec) chains
  files : List.Forall₂ (AllocOk env) (env.inodeAlloc.drop s.nextInodeFile) layout
  buffer : 0 < s.bufferBlocks

/-- The blocks of the groups, chains and allocators behind the ones at hand. -/
def behind (fs : Filesys) (gs : List GroupDesc) (chains : List (List GroupDesc))
    (layout : List (List (List GroupDesc))) : List Nat :=
  groupsTodo fs gs ++ (chainsTodo fs chains ++ allocsTodo fs layout)

/-- Inside the group `g`, with `n` blocks in the buffer; the groups `gs` follow in the chain. -/
structure Inside (env : Env) (s : Scan) (g : GroupDesc) (n left : Nat) (rs : List ExtentRec)
    (gs : List GroupDesc) (chains : List (List GroupDesc)) (layout : List (List (List GroupDesc))) :
    Prop where
  outer : Outer env s chains layout
  desc : s.curDesc = some g
  group : GroupOk env.fs g
  pos : PosOk env.fs g s.curDiscontigRec s.bOffset left rs
  offset : s.bOffset ≠ 0
  linked : Linked env.readGroupDesc g.bgNextGroup gs
  groups : ∀ g ∈ gs, GroupOk env.fs g
  chain : ∃ c, s.curRec = some c ∧ c.cTotal < 2 ^ 32 ∧
    c.cTotal = s.count + n + (g.bgBits - s.bOffset) + totalBits gs
  blocks : s.blocksLeft = n + (g.bgBits - s.bOffset) + totalBits gs + chainBits chains
  fits : s.blocksLeft < 2 ^ 32
  inBuffer : s.blocksInBuffer = n
  curBlock : s.curBlock.take n = (List.range' s.curBlkno n).map env.blocks

/-- The number of the next group descriptor, as `get_next_group` takes it. -/
def Scan.nextGroup (s : Scan) : Nat :=
  if s.bOffset ≠ 0 then (s.curDesc.map GroupDesc.bgNextGroup).getD 0 else s.curBlkno

/-- In front of the groups `gs` of the chain at hand. -/
structure AtGroup (env : Env) (s : Scan) (gs : List GroupDesc) (chains : List (List GroupDesc))
    (layout : List (List (List GroupDesc))) : Prop where
  outer : Outer env s chains layout
  ne : gs ≠ []
  done : s.groupDone = true
  desc : (s.curDesc.isSome || s.bOffset == 0) = true
  linked : Linked env.readGroupDesc s.nextGroup gs
  groups : ∀ g ∈ gs, GroupOk env.fs g
  chain : ∃ c, s.curRec = some c ∧ c.cTotal < 2 ^ 32 ∧ c.cTotal = s.count + totalBits gs
  blocks : s.blocksLeft = totalBits gs + chainBits chains
  fits : s.blocksLeft < 2 ^ 32
  inBuffer : s.blocksInBuffer = 0

/-- In front of the chains `chains` of the allocator at hand. -/
structure AtChain (env : Env) (s : Scan) (chains : List (List GroupDesc))
    (layout : List (List (List GroupDesc))) : Prop where
  outer : Outer env s chains layout
  ne : chains ≠ []
  done : s.chainDone = true
  blocks : s.blocksLeft = chainBits chains
  fits : s.blocksLeft < 2 ^ 32
  inBuffer : s.blocksInBuffer = 0

/-! ### The steps of `fill_group_buffer` -/

theorem chainBits_cons (gs : List GroupDesc) (chains : List (List GroupDesc)) :
    chainBits (gs :: chains) = totalBits gs + chainBits chains := by
  simp [chainBits]

theorem totalBits_cons (g : GroupDesc) (gs : List GroupDesc) :
    totalBits (g :: gs) = g.bgBits + totalBits gs := by
  simp [totalBits]

def Scan.startChain (s : Scan) (r : ChainRec) : Scan :=
  { s with
    curRec := some r
    nextRec := s.nextRec + 1
    count := 0
    bOffset := 0
    curBlkno := r.cBlkno }

theorem chainStep_spec (h : AtChain env s chains layout) : ∃ t gs chains',
    chainStep s = some (.ok (), t) ∧ AtGroup env t gs chains' layout ∧ chains = gs :: chains' := by
  obtain ⟨a, ha, hrecs⟩ := h.outer.alloc
  cases chains with
  | nil => exact absurd rfl h.ne
  | cons gs chains =>
    obtain ⟨r, rest, hr, hrest, hdrop⟩ := forall₂_cons_right_iff.mp hrecs
    obtain ⟨hget, hnext⟩ := drop_eq_cons hdrop
    have hrun : chainStep s = some (.ok (), s.startChain r) := by
      rw [chainStep, bind_ok (get_run s), if_pos h.done, getNextChain, bind_ok (get_run s)]
      simp only [ha, hget]
      rfl
    have hb := h.blocks
    rw [chainBits_cons] at hb
    have hfits : r.cTotal < 2 ^ 32 := by
      have := h.fits
      have := hr.total
      omega
    have hchain : List.Forall₂ (ChainOk env) (a.clRecs.drop (s.startChain r).nextRec) chains := by
      rw [← hnext] at hrest
      exact hrest
    exact ⟨s.startChain r, gs, chains, hrun,
      ⟨⟨⟨a, ha, hchain⟩, h.outer.files, h.outer.buffer⟩, hr.ne, rfl, Bool.or_true _, hr.linked,
        hr.groups, ⟨r, rfl, hfits, hr.total.trans (Nat.zero_add _).symm⟩, hb, h.fits,
        h.inBuffer⟩, rfl⟩

def Scan.startGroup (s : Scan) (g : GroupDesc) : Scan :=
  { s with
    curDesc := some g
    curBlkno := g.bgBlkno + 1
    count := addW 32 s.count 1
    blocksLeft := subW 32 s.blocksLeft 1
    bOffset := 1
    curDiscontigRec := 0 }

theorem groupStep_spec (h : AtGroup env s gs chains layout) : ∃ t g left rs gs',
    groupStep env s = some (.ok (), t) ∧ Inside env t g 0 left rs gs' chains layout ∧
      t.bOffset < g.bgBits ∧ behind env.fs gs chains layout =
        blocksFrom env.fs t.curBlkno left rs ++ behind env.fs gs' chains layout := by
  cases gs with
  | nil => exact absurd rfl h.ne
  | cons g gs =>
    obtain ⟨hne, hread, hblk, hnext⟩ := h.linked
    have hg := h.groups g mem_cons_self
    obtain ⟨left, rs, hpos, htail⟩ := hg.start
    obtain ⟨c, hc, hfits, htotal⟩ := h.chain
    have hrun : groupStep env s = some (.ok (), s.startGroup g) := by
      rw [groupStep, bind_ok (get_run s), if_pos h.done, getNextGroup,
        bind_ok (get_run s), bind_ok (check_ok h.desc s)]
      show (check (s.nextGroup != 0) >>= _) s = _
      rw [bind_ok (check_ok (by simpa using hne) s)]
      show ((ofExcept (env.readGroupDesc s.nextGroup)) >>= _) _ = _
      rw [hread]
      show (if g.bgBlkno ≠ s.nextGroup then fail .corruptGroupDesc else _ : S Unit) _ = _
      rw [if_neg (not_not_intro hblk), Scan.startGroup, hblk]
      rfl
    have hb := h.blocks
    have hb' := h.fits
    have hbits := hg.bits
    rw [totalBits_cons] at hb htotal
    have hcount : (s.startGroup g).count = s.count + 1 := addW_eq (by omega)
    have hleft : (s.startGroup g).blocksLeft = s.blocksLeft - 1 := subW_eq (by omega) hb'
    refine ⟨s.startGroup g, g, left, rs, gs, hrun, ?_, hbits, ?_⟩
    · refine ⟨⟨h.outer.alloc, h.outer.files, h.outer.buffer⟩, rfl, hg, hpos, Nat.one_ne_zero, hnext,
        fun x hx => h.groups x (mem_cons_of_mem _ hx), ⟨c, hc, hfits, ?_⟩, ?_, ?_, h.inBuffer,
        ?_⟩
      · rw [hcount]
        show _ = s.count + 1 + 0 + (g.bgBits - 1) + totalBits gs
        omega
      · show _ = 0 + (g.bgBits - 1) + totalBits gs + chainBits chains
        omega
      · omega
      · rfl
    · show groupsTodo env.fs (g :: gs) ++ _ = blocksFrom env.fs (g.bgBlkno + 1) left rs ++ _
      rw [← htail, groupsTodo, flatMap_cons, append_assoc]
      rfl

/-- With `n` blocks in the buffer, the blocks `bs` are still to be returned. -/
def Pending (env : Env) (s : Scan) (n : Nat) (bs : List Nat) : Prop :=
  ∃ g left rs gs chains layout, Inside env s g n left rs gs chains layout ∧
    bs = blocksFrom env.fs s.curBlkno (n + left) rs ++ behind env.fs gs chains layout

theorem readStep_spec (h : Inside env s g 0 left rs gs chains layout) (hlt : s.bOffset < g.bgBits) :
    ∃ t n, readStep env s = some (.ok (), t) ∧ 0 < n ∧
      Pending env t n (blocksFrom env.fs s.curBlkno left rs ++ behind env.fs gs chains layout) := by
  obtain ⟨m, k, blkno, left', rs', hm, hread, hpos, hblocks⟩ :=
    readableBlocks_spec h.group h.pos hlt h.outer.buffer
  have hrun : getNextReadBlocks env s = readableBlocks env g s := by
    rw [getNextReadBlocks, bind_ok (get_run s)]
    simp only [h.desc]
  obtain ⟨c, hc, hfits, htotal⟩ := h.chain
  have hle := hpos.le
  have hb := h.blocks
  refine ⟨{ s with
      curDiscontigRec := k
      curBlkno := blkno
      bOffset := s.bOffset + m
      blocksInBuffer := m
      curBlock := (List.range' blkno m).map env.blocks }, m, ?_, hm, g, left', rs', gs, chains,
    layout, ?_, by rw [hblocks]⟩
  · rw [readStep, bind_ok (hrun.trans hread)]
    rfl
  · refine ⟨⟨h.outer.alloc, h.outer.files, h.outer.buffer⟩, h.desc, h.group, hpos,
      fun h0 => h.offset (Nat.eq_zero_of_add_eq_zero_right h0), h.linked, h.groups,
        ⟨c, hc, hfits, ?_⟩, ?_, h.fits, rfl, ?_⟩
    · show c.cTotal = s.count + m + (g.bgBits - (s.bOffset + m)) + totalBits gs
      omega
    · show s.blocksLeft = m + (g.bgBits - (s.bOffset + m)) + totalBits gs + chainBits chains
      omega
    · rw [take_of_length_le (by simp)]

theorem fill_atGroup (h : AtGroup env s gs chains layout) : ∃ t n,
    (groupStep env >>= fun _ => readStep env) s = some (.ok (), t) ∧ 0 < n ∧
      Pending env t n (behind env.fs gs chains layout) := by
  obtain ⟨t, g, left, rs, gs', hrun, hin, hlt, hblocks⟩ := groupStep_spec h
  obtain ⟨u, n, hread, hn, hpend⟩ := readStep_spec hin hlt
  refine ⟨u, n, by rw [bind_ok hrun, hread], hn, ?_⟩
  rw [hblocks]
  exact hpend

theorem fill_atChain (h : AtChain env s chains layout) (hcheck : s.checks = true) : ∃ t n,
    fillGroupBuffer env s = some (.ok (), t) ∧ 0 < n ∧
      Pending env t n (behind env.fs [] chains layout) := by
  obtain ⟨t, gs, chains', hrun, hat, rfl⟩ := chainStep_spec h
  obtain ⟨u, n, hfill, hn, hpend⟩ := fill_atGroup hat
  refine ⟨u, n, ?_, hn, ?_⟩
  · rw [fillGroupBuffer, bind_ok (get_run s), bind_ok (check_ok hcheck s), bind_ok hrun, hfill]
  · have : behind env.fs [] (gs :: chains') layout = behind env.fs gs chains' layout := by
      simp [behind, groupsTodo, chainsTodo]
    rw [this]
    exact hpend

theorem chainStep_stay (h : s.chainDone = false) : chainStep s = some (.ok (), s) := by
  rw [chainStep, bind_ok (get_run s), h]
  rfl

theorem groupStep_stay (h : s.groupDone = false) : groupStep env s = some (.ok (), s) := by
  rw [groupStep, bind_ok (get_run s), h]
  rfl

theorem totalBits_pos (h : ∀ g ∈ gs, GroupOk fs g) (hne : gs ≠ []) : 0 < totalBits gs := by
  cases gs with
  | nil => exact absurd rfl hne
  | cons g gs =>
    rw [totalBits_cons]
    have := (h g mem_cons_self).bits
    omega

theorem fill_inside (h : Pending env s 0 bs) (hleft : s.blocksLeft ≠ 0) : ∃ t n,
    fillGroupBuffer env s = some (.ok (), t) ∧ 0 < n ∧ Pending env t n bs := by
  obtain ⟨g, left, rs, gs, chains, layout, hin, rfl⟩ := h
  obtain ⟨c, hc, hfits, htotal⟩ := hin.chain
  have hle := hin.pos.le
  have hb := hin.blocks
  have hcheck : s.checks = true := by
    simp only [Scan.checks, hc, hin.desc, Bool.and_eq_true, decide_eq_true_eq]
    omega
  -- the chain has been read exactly if nothing is left of the group and no group follows
  have hdone : s.chainDone = decide (g.bgBits - s.bOffset + totalBits gs = 0) := by
    simp only [Scan.chainDone, hc, Bool.beq_eq_decide_eq, decide_eq_decide]
    omega
  have hfill : ∀ {t u}, chainStep s = some (.ok (), t) →
      (groupStep env >>= fun _ => readStep env) t = some (.ok (), u) →
      fillGroupBuffer env s = some (.ok (), u) := by
    intro t u h1 h2
    rw [fillGroupBuffer, bind_ok (get_run s), bind_ok (check_ok hcheck s), bind_ok h1, h2]
  rw [Nat.zero_add]
  by_cases hlt : s.bOffset < g.bgBits
  · -- the group goes on
    have hstay : s.groupDone = false := by
      simp only [Scan.groupDone, hin.desc, Option.map_some, Bool.or_eq_false_iff,
        beq_eq_false_iff_ne,
        ne_eq, Option.some.injEq]
      exact ⟨hin.offset, by omega⟩
    obtain ⟨t, n, hrun, hn, hpend⟩ := readStep_spec hin hlt
    refine ⟨t, n, hfill (chainStep_stay ?_) ?_, hn, hpend⟩
    · rw [hdone, decide_eq_false_iff_not]
      omega
    · rw [bind_ok (groupStep_stay hstay), hrun]
  · have hend : s.bOffset = g.bgBits := by omega
    obtain ⟨rfl, rfl⟩ := hin.pos.done hend
    by_cases hgs : gs = []
    · subst hgs
      have hchains : chains ≠ [] := by
        rintro rfl
        exact hleft (by rw [hb, hend]; simp [totalBits, chainBits])
      refine fill_atChain ⟨hin.outer, hchains, ?_, ?_, hin.fits, hin.inBuffer⟩ hcheck
      · rw [hdone, hend, Nat.sub_self]
        rfl
      · rw [hb, hend]
        simp [totalBits]
    · have hpos := totalBits_pos hin.groups hgs
      have hnext : s.nextGroup = g.bgNextGroup := by
        rw [Scan.nextGroup, if_pos hin.offset, hin.desc]
        rfl
      have hat : AtGroup env s gs chains layout := by
        refine ⟨hin.outer, hgs, ?_, ?_, ?_, hin.groups, ⟨c, hc, hfits, by omega⟩, by omega,
          hin.fits, hin.inBuffer⟩
        · simp [Scan.groupDone, hin.desc, hend]
        · simp [hin.desc]
        · rw [hnext]
          exact hin.linked
      obtain ⟨t, n, hrun, hn, hpend⟩ := fill_atGroup hat
      refine ⟨t, n, hfill (chainStep_stay ?_) hrun, hn, hpend⟩
      rw [hdone, decide_eq_false_iff_not]
      omega

/-! ### One call -/

theorem takeBlock_spec (h : Pending env s (n + 1) bs) : ∃ t bs', bs = s.curBlkno :: bs' ∧
      takeBlock s = some (.ok (s.curBlkno, some (env.blocks s.curBlkno)), t) ∧
      Pending env t n bs' := by
  obtain ⟨g, left, rs, gs, chains, layout, hin, rfl⟩ := h
  obtain ⟨c, hc, hfits, htotal⟩ := hin.chain
  have hb := hin.blocks
  have hfits' := hin.fits
  have hbuf : s.blocksInBuffer = n + 1 := hin.inBuffer
  have hcount : addW 32 s.count 1 = s.count + 1 := addW_eq (by omega)
  have hleft : subW 32 s.blocksLeft 1 = s.blocksLeft - 1 := subW_eq (by omega) hfits'
  have hcur := hin.curBlock
  obtain ⟨d, ds, hd⟩ := exists_cons_of_ne_nil fun hs : s.curBlock = [] => by
    rw [hs] at hcur
    cases hcur
  rw [hd, take_succ_cons, range'_succ, map_cons, List.cons.injEq] at hcur
  refine ⟨{ s with
      curBlock := ds
      blocksInBuffer := s.blocksInBuffer - 1
      blocksLeft := s.blocksLeft - 1
      curBlkno := s.curBlkno + 1
      count := s.count + 1 }, blocksFrom env.fs (s.curBlkno + 1) (n + left) rs ++
        behind env.fs gs chains layout, ?_, ?_, g, left, rs, gs, chains, layout, ?_, rfl⟩
  · rw [Nat.add_right_comm]
    rfl
  · rw [takeBlock, bind_ok (get_run s), bind_ok (modify_run _ s), hd, hcur.1, hcount, hleft]
    rfl
  · refine ⟨⟨hin.outer.alloc, hin.outer.files, hin.outer.buffer⟩, hin.desc, hin.group, hin.pos,
      hin.offset, hin.linked, hin.groups, ⟨c, hc, hfits, ?_⟩, ?_, ?_, ?_, hcur.2⟩
    · show c.cTotal = s.count + 1 + n + (g.bgBits - s.bOffset) + totalBits gs
      omega
    · show s.blocksLeft - 1 = n + (g.bgBits - s.bOffset) + totalBits gs + chainBits chains
      omega
    · show s.blocksLeft - 1 < 2 ^ 32
      omega
    · show s.blocksInBuffer - 1 = n
      omega

/-- Between two allocators. -/
structure AtAlloc (env : Env) (s : Scan) (layout : List (List (List GroupDesc))) : Prop where
  files : List.Forall₂ (AllocOk env) (env.inodeAlloc.drop s.nextInodeFile) layout
  buffer : 0 < s.bufferBlocks
  blocks : s.blocksLeft = 0
  inBuffer : s.blocksInBuffer = 0

theorem chains_nil {recs : List ChainRec} (h : List.Forall₂ (ChainOk env) recs chains)
    (hz : chainBits chains = 0) : chains = [] := by
  cases h with
  | nil => rfl
  | cons hc _ =>
    rw [chainBits_cons] at hz
    have := totalBits_pos hc.groups hc.ne
    omega

theorem nextInodeAlloc_spec : ∀ {as layout} s, List.Forall₂ (AllocOk env) as layout →
    (∃ t, nextInodeAlloc as s = (none, t) ∧ allocsTodo env.fs layout = []) ∨
    ∃ a j chains layout', nextInodeAlloc as s =
        (some a, { s with curInodeAlloc := some a, nextInodeFile := s.nextInodeFile + (j + 1) }) ∧
      a.iTotal ≠ 0 ∧ AllocOk env a chains ∧ List.Forall₂ (AllocOk env) (as.drop (j + 1)) layout' ∧
      allocsTodo env.fs layout = chainsTodo env.fs chains ++ allocsTodo env.fs layout'
  | [], _, s, h => by
    cases h
    exact .inl ⟨s, rfl, rfl⟩
  | a :: as, _, s, h => by
    cases h with
    | cons ha hrest =>
      rename_i chains layout
      rw [nextInodeAlloc]
      split
      · next hz =>
        have hnil : chains = [] := chains_nil ha.recs (ha.total.symm.trans hz)
        have htodo : allocsTodo env.fs (chains :: layout) = allocsTodo env.fs layout := by
          rw [hnil]
          rfl
        rw [htodo]
        rcases nextInodeAlloc_spec _ hrest with hnone | ⟨a', j, chains', layout', hrun, hspec⟩
        · exact .inl hnone
        · refine .inr ⟨a', j + 1, chains', layout', ?_, hspec⟩
          rw [hrun]
          simp only [Nat.add_assoc, Nat.add_comm 1]
      · next hz =>
        exact .inr ⟨a, 0, chains, layout, rfl, hz, ha, hrest, rfl⟩

/-- Between two allocators, the first part of a call finds that there is nothing left, or
    takes up an allocator. -/
theorem allocStep_spec (h : AtAlloc env s layout) :
    (∃ t, allocStep env s = some (.ok true, t) ∧ allocsTodo env.fs layout = []) ∨
    ∃ t chains layout', allocStep env s = some (.ok false, t) ∧ AtChain env t chains layout' ∧
      t.checks = true ∧ allocsTodo env.fs layout = behind env.fs [] chains layout' := by
  have hstart : allocStep env s = getNextInodeAlloc env s := by
    rw [allocStep, bind_ok (get_run s), if_pos h.blocks,
      bind_ok (check_ok (by rw [h.inBuffer]; rfl) s)]
  have hcheck : (s.curInodeAlloc.isNone || s.blocksLeft == 0) = true := by
    rw [h.blocks]
    exact Bool.or_true _
  rw [hstart, getNextInodeAlloc, bind_ok (get_run s), bind_ok (check_ok hcheck s)]
  rcases nextInodeAlloc_spec s h.files with ⟨t, hrun, hnil⟩ | ⟨a, j, chains, layout', hrun, hspec⟩
  · rw [hrun]
    exact .inl ⟨t, rfl, hnil⟩
  · obtain ⟨hne, ha, hrest, htodo⟩ := hspec
    rw [hrun]
    refine .inr ⟨_, chains, layout', rfl, ?_, rfl, htodo⟩
    have hchains : chains ≠ [] := by
      rintro rfl
      exact hne ha.total
    refine ⟨⟨⟨a, rfl, ha.recs⟩, ?_, h.buffer⟩, hchains, rfl, ha.total, ha.fits, h.inBuffer⟩
    rw [drop_drop] at hrest
    exact hrest

/-- The states between two calls: the blocks `bs` are still to be returned. -/
inductive Ready (env : Env) (s : Scan) : List Nat → Prop where
  | inside (n : Nat) (bs : List Nat) (h : Pending env s n bs) : Ready env s bs
  | between (layout : List (List (List GroupDesc))) (h : AtAlloc env s layout) :
    Ready env s (allocsTodo env.fs layout)

theorem Pending.atAlloc (h : Pending env s n bs) (hleft : s.blocksLeft = 0) :
    ∃ layout, AtAlloc env s layout ∧ bs = allocsTodo env.fs layout := by
  obtain ⟨g, left, rs, gs, chains, layout, hin, rfl⟩ := h
  obtain ⟨a, -, hchains⟩ := hin.outer.alloc
  have hb := hin.blocks
  have hle := hin.pos.le
  obtain ⟨rfl, rfl⟩ := hin.pos.done (by omega)
  obtain rfl : n = 0 := by omega
  obtain rfl : chains = [] := chains_nil hchains (by omega)
  obtain rfl : gs = [] := by
    by_contra hgs
    have := totalBits_pos hin.groups hgs
    omega
  exact ⟨layout, ⟨hin.outer.files, hin.outer.buffer, hleft, hin.inBuffer⟩, rfl⟩

theorem getNextInode_take {t u : Scan} (halloc : allocStep env s = some (.ok false, t))
    (hfill : fillStep env t = some (.ok (), u)) (hn : 0 < n) (h : Pending env u n bs) :
    ∃ v b bs', bs = b :: bs' ∧ getNextInode env s = some (.ok (b, some (env.blocks b)), v) ∧
      Ready env v bs' := by
  obtain ⟨m, rfl⟩ : ∃ m, n = m + 1 := ⟨n - 1, by omega⟩
  obtain ⟨v, bs', hbs, htake, hpend⟩ := takeBlock_spec h
  refine ⟨v, u.curBlkno, bs', hbs, ?_, .inside m bs' hpend⟩
  rw [getNextInode, bind_ok halloc]
  show (fillStep env >>= fun _ => takeBlock) t = _
  rw [bind_ok hfill, htake]

theorem getNextInode_between (h : AtAlloc env s layout) :
    (allocsTodo env.fs layout = [] ∧ ∃ t, getNextInode env s = some (.ok (0, none), t)) ∨
    ∃ t b bs, allocsTodo env.fs layout = b :: bs ∧
      getNextInode env s = some (.ok (b, some (env.blocks b)), t) ∧ Ready env t bs := by
  rcases allocStep_spec h with ⟨t, hrun, hnil⟩ | ⟨t, chains, layout', hrun, hat, hcheck, htodo⟩
  · refine .inl ⟨hnil, t, ?_⟩
    rw [getNextInode, bind_ok hrun]
    rfl
  · obtain ⟨u, n, hfill, hn, hpend⟩ := fill_atChain hat hcheck
    rw [htodo]
    refine .inr (getNextInode_take hrun ?_ hn hpend)
    rw [fillStep, bind_ok (get_run t), if_pos hat.inBuffer, hfill]

/-- Every call returns the next block, or 0 if there is none. -/
theorem getNextInode_spec (h : Ready env s bs) :
    (bs = [] ∧ ∃ t, getNextInode env s = some (.ok (0, none), t)) ∨
    ∃ t b bs', bs = b :: bs' ∧ getNextInode env s = some (.ok (b, some (env.blocks b)), t) ∧
      Ready env t bs' := by
  cases h with
  | between layout h => exact getNextInode_between h
  | inside n _ h =>
    by_cases hleft : s.blocksLeft = 0
    · obtain ⟨layout, hat, rfl⟩ := h.atAlloc hleft
      exact getNextInode_between hat
    · right
      have halloc : allocStep env s = some (.ok false, s) := by
        rw [allocStep, bind_ok (get_run s), if_neg hleft]
        rfl
      have hbuf : s.blocksInBuffer = n := by
        obtain ⟨_, _, _, _, _, _, hin, _⟩ := h
        exact hin.inBuffer
      by_cases hn : n = 0
      · subst hn
        obtain ⟨t, m, hfill, hm, hpend⟩ := fill_inside h hleft
        refine getNextInode_take halloc ?_ hm hpend
        rw [fillStep, bind_ok (get_run s), if_pos (by omega), hfill]
      · refine getNextInode_take halloc ?_ (Nat.pos_of_ne_zero hn) h
        rw [fillStep, bind_ok (get_run s), if_neg (by omega)]
        rfl

/-! ### The whole scan -/

theorem Ready.yields : ∀ {bs s}, Ready env s bs → Yields env s bs
  | [], _, h => by
    rcases getNextInode_spec h with ⟨-, t, hrun⟩ | ⟨_, _, _, hc, -⟩
    · exact ⟨t, hrun⟩
    · cases hc
  | b :: bs, _, h => by
    rcases getNextInode_spec h with ⟨hc, -⟩ | ⟨t, b', bs', hbs, hrun, hready⟩
    · cases hc
    · cases hbs
      exact ⟨t, hrun, hready.yields⟩

theorem Abut.blkno_ne : ∀ {rs c e}, Abut c rs e → ∀ r ∈ rs, r.eBlkno ≠ 0
  | [], _, _, _ => nofun
  | _ :: _, _, _, h => forall_mem_cons.mpr ⟨h.2.2.1, h.2.2.2.blkno_ne⟩

theorem GroupOk.ne_zero (h : GroupOk fs g) (hblk : g.bgBlkno ≠ 0) :
    ∀ b ∈ groupBlocks fs g, b ≠ 0 := by
  intro b hb
  unfold groupBlocks at hb
  split at hb
  · have := mem_range'_1.mp hb
    omega
  · rename_i hrecs
    obtain ⟨-, e, habut, -⟩ := h.recs hrecs
    obtain ⟨r, hr, hbr⟩ := mem_flatMap.mp hb
    have := habut.blkno_ne r hr
    have := mem_range'_1.mp hbr
    omega

theorem Linked.blkno_ne {read : Nat → Except Errcode GroupDesc} :
    ∀ {gs blkno}, Linked read blkno gs → ∀ g ∈ gs, g.bgBlkno ≠ 0
  | [], _, _ => nofun
  | _ :: _, _, h => forall_mem_cons.mpr ⟨h.2.2.1 ▸ h.1, h.2.2.2.blkno_ne⟩

theorem Consistent.ne_zero (h : Consistent env layout) : ∀ b ∈ allocsTodo env.fs layout, b ≠ 0 := by
  intro b hb
  obtain ⟨chains, hchains, hb⟩ := mem_flatMap.mp hb
  obtain ⟨gs, hgs, hb⟩ := mem_flatMap.mp hb
  obtain ⟨g, hg, hb⟩ := mem_flatMap.mp hb
  obtain ⟨a, -, ha⟩ := forall₂_mem_right h chains hchains
  obtain ⟨c, -, hc⟩ := forall₂_mem_right ha.recs gs hgs
  exact (hc.groups g hg).ne_zero (hc.linked.blkno_ne g hg) b (mem_of_mem_tail hb)

/-- The calls on consistent allocators return every block of every group but the group
    descriptors, once and in order, with its content, and then 0. -/
theorem getNextInode_yields (h : Consistent env layout) : (∀ b ∈ allocsTodo env.fs layout, b ≠ 0) ∧
      Yields env (openInodeScan env.fs) (allocsTodo env.fs layout) := by
  refine ⟨h.ne_zero, Ready.yields (.between layout ⟨h, ?_, rfl, rfl⟩)⟩
  have hle := env.fs.fsBlocksize_le
  exact Nat.div_pos (by unfold openScanBufferSize; omega) (Nat.two_pow_pos _)

/-- Two groups of one chain, the second in two pieces. -/
def twoGroups : List GroupDesc :=
  [⟨2400, 8, 800, []⟩, ⟨800, 16, 0, [⟨0, 1, 0, 0, 800⟩, ⟨1, 1, 0, 0, 1600⟩]⟩]

/-- An empty allocator, and one with the two groups. -/
def twoAllocs : Env where
  fs := smallFs
  inodeAlloc := [⟨0, []⟩, ⟨24, [⟨24, 2400⟩]⟩]
  readGroupDesc := fun blkno =>
    match twoGroups.find? fun g => g.bgBlkno == blkno with
    | some g => .ok g
    | none => .error .badBlkno
  blocks := fun blkno => List.replicate 512 (UInt8.ofNat blkno)

theorem getNextInode_yields_pieces : allocsTodo smallFs [[], [twoGroups]] =
        [2401, 2402, 2403, 2404, 2405, 2406, 2407, 801, 802, 803, 804, 805, 806, 807,
          1600, 1601, 1602, 1603, 1604, 1605, 1606, 1607] ∧
      Yields twoAllocs (openInodeScan smallFs) (allocsTodo smallFs [[], [twoGroups]]) := by
  refine ⟨by decide, (getNextInode_yields ?_).2⟩
  have hwhole : GroupOk smallFs ⟨2400, 8, 800, []⟩ :=
    ⟨by decide, by decide, fun h => absurd rfl h⟩
  have hpieces : GroupOk smallFs ⟨800, 16, 0, [⟨0, 1, 0, 0, 800⟩, ⟨1, 1, 0, 0, 1600⟩]⟩ :=
    ⟨by decide, by decide, fun _ => ⟨rfl, 2, by decide, rfl⟩⟩
  have hchain : ChainOk twoAllocs ⟨24, 2400⟩ twoGroups := by
    refine ⟨by decide, ⟨by decide, rfl, rfl, by decide, rfl, rfl, rfl⟩, ?_, by decide⟩
    rintro g (_ | ⟨_, _ | ⟨_, ⟨⟩⟩⟩)
    · exact hwhole
    · exact hpieces
  exact .cons ⟨.nil, rfl, by decide⟩ (.cons ⟨.cons hchain .nil, by decide, by decide⟩ .nil)

end Ocfs2Tools.InodeScan
