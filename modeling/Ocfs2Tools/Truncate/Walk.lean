import Ocfs2Tools.Truncate.Left

/-!
# The walk on the device

On a well-formed tree without I/O failures the iterator does to the device what `cut`
does to the tree in memory. `Touched` collects what a part of the walk may do, so that
the parts can be put one behind the other.
-/

namespace Ocfs2Tools

open List Prog ExtentRec

variable {fs : Filesys} {N ino : Nat} {s t u : St}
  {B B' : List Nat} {log : List Release} {blkno start len n lo hi d : Nat} {eb : ExtentBlock}
  {r : ExtentRec} {el : ExtentList} {ctxt : ExtentContext Nat} {k : Node} {right : Bool}

/-! ### What a part of the walk does to the state -/

/-- A run from `s` to `t` without failures changed at most the extent blocks `B` and their
    allocation, and gave back `log`, the last thing first. -/
structure Touched (s t : St) (B : List Nat) (log : List Release) : Prop where
  faults : t.faults = []
  ebs : ∀ b, b ∉ B → t.dev.ebs b = s.dev.ebs b
  used : ∀ slot b, b ∉ B → t.dev.used slot b = s.dev.used slot b
  inode : t.dev.inode = s.dev.inode
  released : t.released = log.reverse ++ s.released

theorem Touched.refl (h : s.faults = []) : Touched s s [] [] :=
  ⟨h, fun _ _ => rfl, fun _ _ _ => rfl, rfl, rfl⟩

theorem Touched.trans {log log' : List Release} (h : Touched s t B log)
    (h' : Touched t u B' log') : Touched s u (B ++ B') (log ++ log') := by
  refine ⟨h'.faults, ?_, ?_, h'.inode.trans h.inode, ?_⟩
  · intro b hb
    rw [mem_append, not_or] at hb
    exact (h'.ebs b hb.2).trans (h.ebs b hb.1)
  · intro slot b hb
    rw [mem_append, not_or] at hb
    exact (h'.used slot b hb.2).trans (h.used slot b hb.1)
  · rw [h'.released, h.released, reverse_append, append_assoc]

theorem Touched.mono (h : Touched s t B log) (hB : ∀ b ∈ B, b ∈ B') : Touched s t B' log :=
  ⟨h.faults, fun b hb => h.ebs b fun h' => hb (hB b h'),
    fun slot b hb => h.used slot b fun h' => hb (hB b h'), h.inode, h.released⟩

theorem touched_release (h : s.faults = []) :
    Touched s { s with released := log.reverse ++ s.released } [] log :=
  ⟨h, fun _ _ => rfl, fun _ _ _ => rfl, rfl, rfl⟩

theorem writeBlock_noFault {f : Device → Device} (h : s.faults = []) :
    writeBlock f s = some (.ok (), s.commit (f s.dev)) := by
  rw [writeBlock, h]

theorem writeExtentBlock_run (h : s.faults = []) (hr : outOfRange fs blkno = false) :
    writeExtentBlock fs blkno eb s = some (.ok (), s.commit (s.dev.setEb blkno eb)) := by
  rw [writeExtentBlock, hr, if_neg (by decide), writeBlock_noFault h]

theorem touched_write (h : s.faults = []) :
    Touched s (s.commit (s.dev.setEb blkno eb)) [blkno] [] := by
  refine ⟨h, ?_, fun _ _ _ => rfl, rfl, rfl⟩
  intro b hb
  simp only [mem_singleton] at hb
  simp [St.commit, Device.setEb, hb]

theorem deleteExtentBlock_run (h : s.faults = []) (hr : outOfRange fs blkno = false)
    (heb : s.dev.ebs blkno = some eb) (hno : eb.hBlkno = blkno)
    (hle : eb.hList.lNextFreeRec ≤ eb.hList.lCount)
      (hu : s.dev.used eb.hSuballocSlot blkno = true) :
    ∃ t, deleteExtentBlock fs blkno s = some (.ok (), t) ∧
      Touched s t [blkno] [.extentBlock blkno] := by
  subst hno
  have hfree : chainFree eb.hSuballocSlot eb.hBlkno s = _ := if_pos hu
  refine ⟨_, (bind_ok (readExtentBlock_ok hr heb hle) _).trans ((bind_ok hfree _).trans
    (writeExtentBlock_run h hr)), h, ?_, ?_, rfl, rfl⟩
  · intro b hb
    simp only [mem_singleton] at hb
    simp [St.commit, Device.setEb, Device.setUsed, hb]
  · intro slot b hb
    simp only [mem_singleton] at hb
    simp [St.commit, Device.setEb, Device.setUsed, hb]

/-! ### One leaf record -/

def freedOf (N : Nat) (r : ExtentRec) : Nat := r.eLeafClusters - (N - r.eCpos)

def freedCount (N : Nat) (recs : List ExtentRec) : Nat := (recs.map (freedOf N)).sum

theorem freedCount_append (a b : List ExtentRec) :
    freedCount N (a ++ b) = freedCount N a + freedCount N b := by
  simp [freedCount]

theorem freedCount_cons (r : ExtentRec) (rs : List ExtentRec) :
    freedCount N (r :: rs) = freedOf N r + freedCount N rs := rfl

theorem truncateClusters_run (hino : ino ≠ 0) : truncateClusters fs r ino len start s =
      some (.ok (), { s with released := releaseOf fs r start len :: s.released }) := by
  unfold truncateClusters releaseOf
  split
  · rfl
  · rw [bind_ok (check_ok (by simpa using hino) s)]
    rfl

theorem truncateFree_run {cleanup : Bool} (hino : ino ≠ 0) (hstart : start ≠ 0) (hlen : len ≤ n)
    (hn : n < 4294967296) : truncateFree fs ino r cleanup start len n s =
      some (.ok (IterFlags.extentChanged, if cleanup then ExtentRec.zero else r, n - len),
        { s with released := releaseOf fs r start len :: s.released }) := by
  rw [truncateFree, if_neg hstart, bind_ok (attempt_run (truncateClusters_run hino))]
  simp only [pure_run, subW_32_eq hlen hn]

theorem truncateIterate_leaf (hino : ino ≠ 0) (hr : RecOk fs r) (hpos : 0 < r.eLeafClusters)
    (hend : r.eCpos + r.eLeafClusters ≤ uint32Max) (hfree : freedOf N r ≤ n) (hn : n < 4294967296) :
    truncateIterate fs ino N r 0 n s =
      some (.ok (⟨decide (N < r.eCpos + r.eLeafClusters), false, false⟩, cutRec N r,
        n - freedOf N r), { s with released := (cutFreed fs N r).reverse ++ s.released }) := by
  unfold uint32Max at hend
  have hsum : addW 32 r.eCpos (recClusters 0 r) = r.eCpos + r.eLeafClusters := by
    rw [recClusters_zero, addW_32_eq]
    omega
  simp only [truncateIterate, hsum]
  unfold freedOf at hfree ⊢
  by_cases h1 : r.eCpos + r.eLeafClusters ≤ N
  · have h0 : r.eLeafClusters - (N - r.eCpos) = 0 := by omega
    rw [cutRec_below h1, cutFreed, h0]
    simp [IterFlags.nothing, h1]
  · have hlt : N < r.eCpos + r.eLeafClusters := by omega
    rw [if_neg h1, cutFreed, if_neg h1]
    by_cases h2 : N ≤ r.eCpos
    · have h0 : N - r.eCpos = 0 := by omega
      rw [h0, Nat.sub_zero] at hfree ⊢
      rw [if_pos h2, if_true, recClusters_zero, if_pos h2,
        truncateFree_run hino hr.blkno_ne hfree hn,
        cutRec_above h2 hpos]
      simp [IterFlags.extentChanged, hlt]
    · have hleaf := hr.fits.leaf
      have hsub : subW 32 N r.eCpos = N - r.eCpos := subW_32_eq (by omega) (by omega)
      have hlen : subW 32 (r.eCpos + r.eLeafClusters) N = r.eLeafClusters - (N - r.eCpos) := by
        rw [subW_32_eq (by omega) (by omega)]
        omega
      have hset : setRecClusters 0 r (N - r.eCpos) = cutRec N r := by
        rw [cutRec_mid (by omega) hlt, setRecClusters, if_pos rfl, Nat.mod_eq_of_lt (by omega)]
      have hclu : recClusters 0 (cutRec N r) = N - r.eCpos := by
        rw [cutRec_mid (by omega) hlt]
        rfl
      have hflags : (cutRec N r).eFlags = r.eFlags := by rw [cutRec_mid (by omega) hlt]
      have hrel : ∀ start len, releaseOf fs (cutRec N r) start len = releaseOf fs r start len := by
        intro start len
        rw [releaseOf, releaseOf, hflags]
      have hlen' : r.eCpos + r.eLeafClusters - N = r.eLeafClusters - (N - r.eCpos) := by omega
      rw [if_neg h2, if_true, if_neg h2, hsub, hset, hclu, hlen, truncateFree_run hino
        (by have := hr.blkno_ne; omega) hfree hn, hrel, hlen']
      simp [IterFlags.extentChanged, hlt]

/-! ### A leaf list -/

theorem iterateRecs_leaf (hino : ino ≠ 0) : ∀ {rs i lo hi s b} ctxt,
    Spaced eCpos eLeafClusters lo rs hi → hi ≤ uint32Max →
    (∀ r ∈ rs, RecOk fs r) → freedCount N rs ≤ ctxt.privData → ctxt.privData < 4294967296 →
    iterateRecs (leafStep (truncateIterate fs ino N)) i rs ⟨b, false, false⟩ ctxt s =
      some (.ok (⟨b || rs.any (fun r => decide (N < r.eCpos + r.eLeafClusters)), false, false⟩,
        rs.map (cutRec N), { ctxt with privData := ctxt.privData - freedCount N rs }),
        { s with released := (rs.flatMap (cutFreed fs N)).reverse ++ s.released })
  | [], i, lo, hi, s, b, ctxt, _, _, _, _, _ => by simp [iterateRecs, freedCount]
  | r :: rs, i, lo, hi, s, b, ctxt, hs, hhi, hok, hfree, hn => by
    have hb := hs.mem_bounds r (by simp)
    rw [freedCount_cons] at hfree
    have hstep : leafStep (truncateIterate fs ino N) i r ctxt s =
        some (.ok (⟨decide (N < r.eCpos + r.eLeafClusters), false, false⟩, cutRec N r,
          { ctxt with privData := ctxt.privData - freedOf N r }),
          { s with released := (cutFreed fs N r).reverse ++ s.released }) := by
      have hne : ¬ (i = 0 ∧ r.eLeafClusters = 0) := by omega
      rw [leafStep, if_neg hne, callFunc, bind_ok (truncateIterate_leaf hino
        (hok r (by simp)) hb.2.1 (by omega) (by omega) hn)]
      rfl
    have ih := iterateRecs_leaf hino (i := i + 1) (s := { s with
        released := (cutFreed fs N r).reverse ++ s.released })
      (b := b || decide (N < r.eCpos + r.eLeafClusters))
      { ctxt with privData := ctxt.privData - freedOf N r } hs.2.2 hhi
      (fun x hx => hok x (mem_cons_of_mem _ hx)) (by show _ ≤ _ - _; omega)
      (by show _ - _ < _; omega)
    rw [iterateRecs, bind_ok hstep]
    simp only [IterFlags.or, IterFlags.stops, Bool.or_false, Bool.false_eq_true, if_false,
      bind_ok ih, pure_run]
    simp only [map_cons, any_cons, Bool.or_assoc, freedCount_cons, Nat.sub_sub,
      flatMap_cons, reverse_append, append_assoc]

theorem extentIterateEl_leaf (hino : ino ≠ 0) {mode : IterMode} (h : LeafOk fs lo hi el)
    (hhi : hi ≤ uint32Max) (hfree : freedCount N el.nonempty ≤ ctxt.privData)
    (hn : ctxt.privData < 4294967296) :
    extentIterateEl fs mode (truncateIterate fs ino N) 0 el ctxt s =
      some (.ok (⟨cutChanged N 0 el, false, false⟩, (cut fs N 0 el []).el,
        { ctxt with privData := ctxt.privData - freedCount N el.nonempty }),
        { s with released := (cut fs N 0 el []).log.reverse ++ s.released }) := by
  have hloop : iterateRecs (leafStep (truncateIterate fs ino N)) 0 el.live IterFlags.nothing ctxt s
      = some (.ok (⟨cutChanged N 0 el, false, false⟩, el.live.map (cutRec N),
        { ctxt with privData := ctxt.privData - freedCount N el.nonempty }),
        { s with released := (el.live.flatMap (cutFreed fs N)).reverse ++ s.released }) := by
    have hs := h.spaced
    have hok := h.recs
    have hlive := live_eq_dropEmpty el.live
    rw [h.nonempty_eq] at hfree ⊢
    generalize dropEmpty el.live = rs at hfree hs hok hlive
    have hrest := fun i => iterateRecs_leaf hino (i := i) (s := s) (b := false) ctxt hs hhi
      hok hfree hn
    rcases hlive with hd | hd
    · rw [IterFlags.nothing, hd, hrest 0, cutChanged, hd]
      rfl
    · -- the empty record is skipped
      have hskip : leafStep (truncateIterate fs ino N) 0 ExtentRec.zero ctxt s =
          some (.ok (IterFlags.nothing, ExtentRec.zero, ctxt), s) := rfl
      have hz : cutRec N ExtentRec.zero = ExtentRec.zero := cutRec_below (by simp [ExtentRec.zero])
      have hzf : cutFreed fs N ExtentRec.zero = [] := by simp [cutFreed, ExtentRec.zero]
      have hch : cutChanged N 0 el = rs.any fun r => decide (N < r.eCpos + r.eLeafClusters) := by
        rw [cutChanged, hd]
        rfl
      rw [hch, hd, iterateRecs, bind_ok hskip, map_cons, flatMap_cons, hz, hzf, nil_append]
      simp only [IterFlags.nothing, IterFlags.or, IterFlags.stops, Bool.or_false,
        Bool.false_eq_true, if_false, bind_ok (hrest (0 + 1)), pure_run, Bool.false_or]
  rw [extentIterateEl, bind_ok hloop]
  rfl

/-! ### An interior record -/

/-- `truncate_iterate` on a record that leads to a block, which the walk has left as `eb`. -/
theorem truncateIterate_node (ino N d n : Nat) {c : Cut} (hf : s.faults = [])
    (hend : r.eCpos + r.eIntClusters ≤ uint32Max) (hpos : 0 < r.eIntClusters)
    (hkno : k.eb.hBlkno = r.eBlkno) (hrange : outOfRange fs r.eBlkno = false)
    (heb : s.dev.ebs r.eBlkno = some eb) (hno : eb.hBlkno = r.eBlkno) (hlist : eb.hList = c.el)
    (hle : c.el.lNextFreeRec ≤ c.el.lCount) (hused : s.dev.used eb.hSuballocSlot r.eBlkno = true) :
    ∃ t, truncateIterate fs ino N r (d + 1) n s =
        some (.ok (⟨decide (N < r.eCpos + r.eIntClusters), false, false⟩, (cutPair N c r k).1,
          n), t) ∧
      ((cutPair N c r k = (ExtentRec.zero, [], c.log ++ [.extentBlock k.eb.hBlkno]) ∧
          Touched s t [r.eBlkno] [.extentBlock k.eb.hBlkno]) ∨
        (cutPair N c r k).2.1 ≠ [] ∧ t = s) := by
  have hend' := hend
  unfold uint32Max at hend'
  have hsum : addW 32 r.eCpos (recClusters (d + 1) r) = r.eCpos + r.eIntClusters := by
    rw [recClusters_succ, addW_32_eq]
    omega
  rw [← hlist] at hle
  obtain ⟨t, hdel, ht⟩ := deleteExtentBlock_run hf hrange heb hno hle hused
  have hblock : ∀ r', r'.eBlkno = r.eBlkno → truncateBlock fs r' n s =
      some (.ok (IterFlags.extentChanged, ExtentRec.zero, n), t) := by
    intro r' hr'
    rw [truncateBlock, hr', bind_ok (attempt_run hdel)]
    rfl
  simp only [truncateIterate, hsum, Nat.succ_ne_zero, if_false]
  by_cases h1 : r.eCpos + r.eIntClusters ≤ N
  · rw [cutPair_below k h1]
    simp [IterFlags.nothing, h1]
  · have hlt : N < r.eCpos + r.eIntClusters := by omega
    have hdec : decide (N < r.eCpos + r.eIntClusters) = true := decide_eq_true hlt
    rw [if_neg h1, hdec]
    by_cases h2 : N ≤ r.eCpos
    · have hpair := cutPair_gone (c := c) k hlt (.inl h2)
      rw [hkno] at hpair ⊢
      exact ⟨t, by rw [if_pos h2, hblock r rfl, hpair]; rfl, .inl ⟨hpair, ht⟩⟩
    · have hsub : subW 32 N r.eCpos = N - r.eCpos := subW_32_eq (by omega) (by omega)
      have hset : setRecClusters (d + 1) r (N - r.eCpos) = r.setIntClusters (N - r.eCpos) := rfl
      rw [if_neg h2, hsub, hset, bind_ok (attempt_run (readExtentBlock_ok hrange heb hle))]
      by_cases h3 : c.el.lNextFreeRec = 0
      · have hpair := cutPair_gone k hlt (.inr h3)
        rw [hkno] at hpair ⊢
        refine ⟨t, ?_, .inl ⟨hpair, ht⟩⟩
        simp only [hlist, h3, if_true]
        rw [hblock (r.setIntClusters (N - r.eCpos)) rfl, hpair]
        rfl
      · have hpair := cutPair_mid k hlt (by omega) h3
        refine ⟨s, ?_, .inr ⟨by rw [hpair]; simp, rfl⟩⟩
        simp only [hlist, h3, if_false]
        rw [hpair]
        rfl

/-- The walk can start on the blocks `B`: no write fails, and they are different blocks
    of the device, each marked in the allocator it says it came from. -/
structure Ready (fs : Filesys) (s : St) (B : List Nat) : Prop where
  faults : s.faults = []
  nodup : B.Nodup
  range : ∀ b ∈ B, outOfRange fs b = false
  used : ∀ b ∈ B, ∀ eb, s.dev.ebs b = some eb → s.dev.used eb.hSuballocSlot b = true

theorem Ready.sub (h : Ready fs s B) (hs : B'.Sublist B) : Ready fs s B' :=
  ⟨h.faults, h.nodup.sublist hs, fun b hb => h.range b (hs.subset hb),
    fun b hb => h.used b (hs.subset hb)⟩

theorem Ready.frame (h : Ready fs s B) (ht : Touched s t B' log) (hd : ∀ b ∈ B, b ∉ B') :
    Ready fs t B := by
  refine ⟨ht.faults, h.nodup, h.range, fun b hb eb heb => ?_⟩
  rw [ht.ebs b (hd b hb)] at heb
  rw [ht.used _ b (hd b hb)]
  exact h.used b hb eb heb

theorem Stored.frame {ebs ebs' : Nat → Option ExtentBlock} : ∀ {d ks},
    Stored ebs d ks → (∀ b ∈ treeBlocks d ks, ebs' b = ebs b) → Stored ebs' d ks
  | 0, _, _, _ => trivial
  | d + 1, ks, h, hb => by
    intro k hk
    obtain ⟨h1, h2⟩ := h k hk
    exact ⟨(hb _ (mem_treeBlocks_succ.mpr ⟨k, hk, .inl rfl⟩)).trans h1,
      h2.frame fun b hb' => hb b (mem_treeBlocks_succ.mpr ⟨k, hk, .inr hb'⟩)⟩

theorem cutPair_kids (hk : KidOk fs d right r k) (hr : r.eCpos + r.eIntClusters ≤ uint32Max) :
    ∀ b ∈ treeBlocks (d + 1) (cutPair N (k.cut fs N d) r k).2.1, b ∈ nodeBlocks d k := fun _ hb =>
  (cutPair_blocks hk hr (cut_blocks hk.2 hr)).mem_iff.mpr (mem_append_left _ hb)

theorem extentIterateEb_cut (ino : Nat) {ctxt' : ExtentContext Nat}
    {iterateEl : ExtentList → ExtentContext Nat → M (IterFlags × ExtentList × ExtentContext Nat)}
    (hk : KidOk fs d right r k) (hl : Leads s.dev.ebs d r k) (hpos : 0 < r.eIntClusters)
    (hend : r.eCpos + r.eIntClusters ≤ uint32Max) (hready : Ready fs s (nodeBlocks d k))
    (hbelow : iterateEl k.eb.hList { ctxt with errcode := none } s =
      some (.ok (⟨cutChanged N d k.eb.hList, false, false⟩, (k.cut fs N d).el, ctxt'), t))
    (ht : Touched s t (treeBlocks d k.kids) (k.cut fs N d).log)
    (hst : Stored t.dev.ebs d (k.cut fs N d).kids) :
    ∃ u, extentIterateEb fs ⟨true, false⟩ (truncateIterate fs ino N) d iterateEl r ctxt s =
        some (.ok (⟨decide (N < r.eCpos + r.eIntClusters), false, false⟩,
          (cutPair N (k.cut fs N d) r k).1, ctxt'.wrote (cutChanged N d k.eb.hList)), u) ∧
      Touched s u (nodeBlocks d k) (cutPair N (k.cut fs N d) r k).2.2 ∧
      Stored u.dev.ebs (d + 1) (cutPair N (k.cut fs N d) r k).2.1 := by
  obtain ⟨hown, -⟩ := nodup_cons.mp hready.nodup
  have hself : k.eb.hBlkno ∈ nodeBlocks d k := mem_cons_self ..
  have hr := hready.range _ hself
  have hu := hready.used _ hself k.eb (by rw [hl.blkno]; exact hl.eb)
  rw [hl.blkno] at hr hu hown
  have hblk : r.eBlkno ≠ 0 := ne_zero_of_inRange hr
  obtain ⟨-, -, hle⟩ := cut_shape hk.2
  -- the block after its list was written back
  obtain ⟨v, hw, hv, heb, husedv⟩ : ∃ v, writeChanged fs (cutChanged N d k.eb.hList) r.eBlkno
        { k.eb with hList := (k.cut fs N d).el } t = some (.ok (.ok ()), v) ∧
      Touched t v [r.eBlkno] [] ∧
      v.dev.ebs r.eBlkno = some { k.eb with hList := (k.cut fs N d).el } ∧
      v.dev.used k.eb.hSuballocSlot r.eBlkno = true := by
    have hu' := (ht.used k.eb.hSuballocSlot r.eBlkno hown).trans hu
    cases hc : cutChanged N d k.eb.hList with
    | true =>
      refine ⟨_, by rw [writeChanged, if_pos rfl, attempt_run
        (writeExtentBlock_run ht.faults hr)], touched_write ht.faults, ?_, hu'⟩
      simp [St.commit, Device.setEb]
    | false =>
      refine ⟨t, rfl, (Touched.refl ht.faults).mono (by simp), ?_, hu'⟩
      rw [Node.cut, cut_unchanged hk.2 hc, ht.ebs _ hown]
      exact hl.eb
  obtain ⟨u, hfun, hres⟩ := truncateIterate_node ino N d
    (ctxt'.wrote (cutChanged N d k.eb.hList)).privData
    hv.faults hend hpos hl.blkno hr heb hl.blkno rfl
    hle husedv
  have hdepth : k.eb.hList.lTreeDepth = d := hk.2.depth
  refine ⟨u, ?_, ?_⟩
  · have hbefore : callBefore ⟨true, false⟩ (truncateIterate fs ino N) r (d + 1) ctxt s =
        some (.ok (IterFlags.nothing, r, ctxt), s) := rfl
    have hafter : callAfter ⟨true, false⟩ (truncateIterate fs ino N)
        (IterFlags.nothing.or ⟨false, false, false⟩) r (d + 1)
        (ctxt'.wrote (cutChanged N d k.eb.hList)) v =
        some (.ok (⟨decide (N < r.eCpos + r.eIntClusters), false, false⟩,
          (cutPair N (k.cut fs N d) r k).1, ctxt'.wrote (cutChanged N d k.eb.hList)), u) := by
      rw [callAfter, if_pos ⟨rfl, rfl, rfl⟩, callFunc, bind_ok hfun]
      rfl
    have hab : ¬ (r.eBlkno = 0 ∨ IterFlags.nothing.abort = true) := by
      simp [hblk, IterFlags.nothing]
    have hbad : ¬ (k.eb.hList.lTreeDepth ≠ d ∨ k.eb.hBlkno ≠ r.eBlkno) := by
      simp [hdepth, hl.blkno]
    rw [extentIterateEb, bind_ok hbefore]
    simp only [hab, if_false, hr, Bool.false_eq_true]
    rw [bind_ok (attempt_run (readExtentBlock_ok hr hl.eb hk.2.le_count))]
    simp only [hbad, if_false]
    rw [bind_ok hbelow]
    rw [bind_ok hw]
    exact hafter
  · have hsub : ∀ b ∈ treeBlocks d k.kids ++ [r.eBlkno], b ∈ nodeBlocks d k := by
      rw [← hl.blkno]
      exact forall_mem_append.mpr ⟨fun b hb => mem_cons_of_mem _ hb, forall_mem_singleton.mpr hself⟩
    have hsv := (ht.trans hv).mono hsub
    rw [append_nil] at hsv
    rcases hres with ⟨hpair, hgone⟩ | ⟨hkeep, rfl⟩
    · rw [hpair]
      refine ⟨((hsv.trans hgone).mono ?_), fun _ h => absurd h not_mem_nil⟩
      rw [← hl.blkno]
      exact forall_mem_append.mpr ⟨fun _ hb => hb, forall_mem_singleton.mpr hself⟩
    · -- what is left below the record was not touched after the walk below it
      have hstv : Stored u.dev.ebs d (k.cut fs N d).kids := by
        refine hst.frame fun b hb => hv.ebs b ?_
        rw [mem_singleton]
        rintro rfl
        exact hown ((cut_blocks hk.2 hend).mem_iff.mpr (mem_append_left _ hb))
      by_cases h1 : r.eCpos + r.eIntClusters ≤ N
      · rw [Node.cut, cut_unchanged hk.2 (hk.2.not_changed h1)] at hsv hstv heb
        rw [cutPair_below k h1]
        exact ⟨hsv, forall_mem_singleton.mpr ⟨hl.blkno ▸ heb, hstv⟩⟩
      · have hmid : ¬ (N ≤ r.eCpos ∨ (k.cut fs N d).el.lNextFreeRec = 0) := by
          intro hgone
          rw [cutPair_gone k (by omega) hgone] at hkeep
          exact hkeep rfl
        rw [not_or] at hmid
        rw [cutPair_mid k (by omega) (by omega) hmid.2]
        exact ⟨hsv, forall_mem_singleton.mpr ⟨by rw [Node.eb_mk]; rw [hl.blkno, heb], hstv⟩⟩

/-! ### The walk -/

def lastBlk (dflt : Nat) (leaves : List ExtentBlock) : Nat :=
  match leaves.getLast? with
  | some eb => eb.hBlkno
  | none => dflt

theorem lastBlk_append (dflt : Nat) (a b : List ExtentBlock) :
    lastBlk dflt (a ++ b) = lastBlk (lastBlk dflt a) b := by
  unfold lastBlk
  rw [getLast?_append]
  cases b.getLast? <;> rfl

theorem treeLeaves_nil (d : Nat) : treeLeaves d [] = [] := by
  cases d with
  | zero => rfl
  | succ d => rw [treeLeaves_succ]; rfl

/-- What the walk of a list has done and noted. -/
structure Walked (fs : Filesys) (N d hi : Nat) (el : ExtentList) (ks : List Node) (s : St)
    (ctxt ctxt' : ExtentContext Nat) (t : St) : Prop where
  touched : Touched s t (treeBlocks d ks) (cut fs N d el ks).log
  stored : Stored t.dev.ebs d (cut fs N d el ks).kids
  priv : ctxt'.privData = ctxt.privData - freedCount N (treeRecs d el ks)
  last : ctxt'.lastEbBlkno = lastBlk ctxt.lastEbBlkno (treeLeaves d (cut fs N d el ks).kids)
  cpos : ctxt'.lastEbCpos ≤ hi
  leaf : d = 0 → ctxt'.lastEbCpos = ctxt.lastEbCpos

/-- The walk of every well-formed list of depth `d` does what `cut` does. -/
def Walks (fs : Filesys) (ino N d : Nat) : Prop :=
  ∀ ⦃right : Bool⦄ ⦃lo hi : Nat⦄ ⦃el : ExtentList⦄ ⦃ks : List Node⦄ ⦃s : St⦄
    (ctxt : ExtentContext Nat), WfList fs d right lo hi el ks → hi ≤ uint32Max →
    readKids s.dev.ebs d el = some ks → Ready fs s (treeBlocks d ks) →
    freedCount N (treeRecs d el ks) ≤ ctxt.privData → ctxt.privData < 4294967296 →
    ctxt.lastEbCpos ≤ lo →
    ∃ t ctxt', extentIterateEl fs ⟨true, false⟩ (truncateIterate fs ino N) d el ctxt s =
        some (.ok (⟨cutChanged N d el, false, false⟩, (cut fs N d el ks).el, ctxt'), t) ∧
      Walked fs N d hi el ks s ctxt ctxt' t

theorem wrote_same (ctxt : ExtentContext Nat) (b : Bool) :
    (ctxt.wrote b).privData = ctxt.privData ∧ (ctxt.wrote b).lastEbBlkno = ctxt.lastEbBlkno ∧
      (ctxt.wrote b).lastEbCpos = ctxt.lastEbCpos := by
  cases b <;> exact ⟨rfl, rfl, rfl⟩

theorem noteEb_cut (ctxt ctxt' : ExtentContext Nat) (hk : KidOk fs d right r k)
    (hpos : 0 < r.eIntClusters) (hno : k.eb.hBlkno = r.eBlkno)
    (hend : r.eCpos + r.eIntClusters ≤ uint32Max) (hctxt : ctxt.lastEbCpos ≤ r.eCpos)
    (hlast : ctxt'.lastEbBlkno = lastBlk ctxt.lastEbBlkno (treeLeaves d (k.cut fs N d).kids))
    (hcpos : ctxt'.lastEbCpos ≤ r.eCpos + r.eIntClusters)
    (hleaf : d = 0 → ctxt'.lastEbCpos = ctxt.lastEbCpos) :
    (ctxt'.noteEb (d + 1) (cutPair N (k.cut fs N d) r k).1).lastEbBlkno = lastBlk ctxt.lastEbBlkno
          (treeLeaves (d + 1) (cutPair N (k.cut fs N d) r k).2.1) ∧
      (ctxt'.noteEb (d + 1) (cutPair N (k.cut fs N d) r k).1).lastEbCpos ≤
        r.eCpos + r.eIntClusters := by
  -- a record that stays notes its block, or leaves what was noted below it
  have hstay : ∀ {r' k'}, r'.eIntClusters ≠ 0 → r'.eCpos = r.eCpos →
      r'.eBlkno = r.eBlkno → k'.eb.hBlkno = r.eBlkno →
      k'.kids = (k.cut fs N d).kids →
      (ctxt'.noteEb (d + 1) r').lastEbBlkno = lastBlk ctxt.lastEbBlkno (treeLeaves (d + 1) [k']) ∧
        (ctxt'.noteEb (d + 1) r').lastEbCpos ≤ r.eCpos + r.eIntClusters := by
    intro r' k' h1 h2 h3 h4 h5
    rw [treeLeaves_succ, flatMap_singleton]
    cases d with
    | zero =>
      have hle : ctxt'.lastEbCpos ≤ r'.eCpos := by rw [hleaf rfl, h2]; exact hctxt
      rw [ExtentContext.noteEb, if_pos ⟨h1, hle⟩]
      refine ⟨?_, by show r'.eCpos ≤ _; omega⟩
      show r'.eBlkno = k'.eb.hBlkno
      rw [h3, h4]
    | succ d =>
      rw [nodeLeaves, h5, ← hlast, ExtentContext.noteEb]
      split
      · exact ⟨rfl, by show r'.eCpos ≤ _; omega⟩
      · exact ⟨rfl, hcpos⟩
  by_cases h1 : r.eCpos + r.eIntClusters ≤ N
  · rw [cutPair_below k h1]
    exact hstay (ne_of_gt hpos) rfl rfl hno
      (by rw [Node.cut, cut_unchanged hk.2 (hk.2.not_changed h1)])
  · by_cases h2 : N ≤ r.eCpos ∨ (k.cut fs N d).el.lNextFreeRec = 0
    · rw [cutPair_gone k (by omega) h2, treeLeaves_nil]
      rw [kid_gone hk hend h2, treeLeaves_nil] at hlast
      exact ⟨hlast, hcpos⟩
    · rw [not_or] at h2
      rw [cutPair_mid k (by omega) (by omega) h2.2]
      exact hstay (by rw [eIntClusters_cut (le_refl _) (by omega) (by omega) hend]; omega) rfl
        rfl hno rfl

theorem iterateRecs_node (ih : Walks fs ino N d) : ∀ {rs ks i lo hi b s ctxt},
    Tiled eCpos eIntClusters lo rs hi → hi ≤ uint32Max →
    List.Forall₂ (fun r k => ∃ right, KidOk fs d right r k) rs ks →
    List.Forall₂ (Leads s.dev.ebs d) rs ks → Ready fs s (ks.flatMap (nodeBlocks d)) →
    freedCount N (ks.flatMap fun k => treeRecs d k.eb.hList k.kids) ≤ ctxt.privData →
    ctxt.privData < 4294967296 → ctxt.lastEbCpos ≤ lo →
    ∃ t ctxt', iterateRecs (fun _ => nodeStep fs ⟨true, false⟩ (truncateIterate fs ino N) d
          (extentIterateEl fs ⟨true, false⟩ (truncateIterate fs ino N) d)) i rs ⟨b, false, false⟩
          ctxt s =
        some (.ok (⟨b || rs.any (fun r => decide (N < r.eCpos + r.eIntClusters)), false, false⟩,
          (cutOuts fs N d rs ks).map (fun o => o.1), ctxt'), t) ∧
      Touched s t (ks.flatMap (nodeBlocks d)) ((cutOuts fs N d rs ks).flatMap fun o => o.2.2) ∧
      Stored t.dev.ebs (d + 1) ((cutOuts fs N d rs ks).flatMap fun o => o.2.1) ∧
      ctxt'.privData = ctxt.privData -
        freedCount N (ks.flatMap fun k => treeRecs d k.eb.hList k.kids) ∧
      ctxt'.lastEbBlkno = lastBlk ctxt.lastEbBlkno
        (treeLeaves (d + 1) ((cutOuts fs N d rs ks).flatMap fun o => o.2.1)) ∧
      ctxt'.lastEbCpos ≤ hi := by
  intro rs
  induction rs with
  | nil =>
    intro ks i lo hi b s ctxt ht _ hks _ hready _ _ hlo
    cases hks
    refine ⟨s, ctxt, ?_, Touched.refl hready.faults, fun _ h => absurd h not_mem_nil,
      by simp [freedCount], ?_, le_trans hlo ht⟩
    · simp [iterateRecs, cutOuts]
    · show _ = lastBlk _ (treeLeaves (d + 1) [])
      rw [treeLeaves_nil]
      rfl
  | cons r rs ihrs =>
    intro ks i lo hi b s ctxt ht hhi hks hls hready hfree hn hlo
    obtain _ | @⟨_, k, _, ks, ⟨right, hk⟩, hks⟩ := hks
    obtain ⟨hl, hls⟩ := forall₂_cons.mp hls
    obtain ⟨hr1, hr2, hr3⟩ := ht
    have hrend : r.eCpos + r.eIntClusters ≤ uint32Max := by
      have := hr3.spaced.le
      omega
    rw [flatMap_cons] at hready hfree
    rw [freedCount_append] at hfree
    have hdisj := (nodup_append.mp hready.nodup).2.2
    have hrk := hready.sub (sublist_append_left ..)
    have hrks := hready.sub (sublist_append_right ..)
    -- the walk below the first record, and then the record itself
    obtain ⟨t, ctxt1, hrun, hw⟩ := ih { ctxt with errcode := none } hk.2 hrend hl.kids
      (hrk.sub (sublist_cons_self ..)) (by show _ ≤ ctxt.privData; omega) hn
      (by show ctxt.lastEbCpos ≤ _; omega)
    obtain ⟨u, hrun1, hu, hst⟩ := extentIterateEb_cut ino hk hl hr2 hrend hrk hrun hw.touched
        hw.stored
    obtain ⟨hpriv1, hlast1, hcpos1⟩ := wrote_same ctxt1 (cutChanged N d k.eb.hList)
    generalize ctxt1.wrote (cutChanged N d k.eb.hList) = ctxt1' at hrun1 hpriv1 hlast1 hcpos1
    obtain ⟨hnote1, hnote2⟩ := noteEb_cut ctxt ctxt1' hk hr2 hl.blkno hrend (by omega)
      (hlast1.trans hw.last) (hcpos1 ▸ hw.cpos) fun h => hcpos1.trans (hw.leaf h)
    have hpriv : (ctxt1'.noteEb (d + 1) (cutPair N (k.cut fs N d) r k).1).privData =
        ctxt.privData - freedCount N (treeRecs d k.eb.hList k.kids) := by
      rw [← hw.priv, ← hpriv1]
      unfold ExtentContext.noteEb
      split <;> rfl
    have hstep : nodeStep fs ⟨true, false⟩ (truncateIterate fs ino N) d
        (extentIterateEl fs ⟨true, false⟩ (truncateIterate fs ino N) d) r ctxt s =
        some (.ok (⟨decide (N < r.eCpos + r.eIntClusters), false, false⟩,
          (cutPair N (k.cut fs N d) r k).1,
          ctxt1'.noteEb (d + 1) (cutPair N (k.cut fs N d) r k).1), u) := by
      rw [nodeStep, bind_ok hrun1]
      rfl
    -- the other records are as they were
    have hother : ∀ b ∈ ks.flatMap (nodeBlocks d), b ∉ nodeBlocks d k := fun b hb hb' =>
      hdisj b hb' b hb rfl
    have hls' : List.Forall₂ (Leads u.dev.ebs d) rs ks :=
      leads_frame_all hls fun b hb => hu.ebs b (hother b hb)
    obtain ⟨v, ctxt2, hrun2, hv, hst2, hp2, hlast2, hcpos2⟩ := ihrs (i := i + 1)
      (b := b || decide (N < r.eCpos + r.eIntClusters)) hr3 hhi hks hls' (hrks.frame hu hother)
      (by rw [hpriv]; omega) (by rw [hpriv]; omega) (by rw [← hr1]; exact hnote2)
    refine ⟨v, ctxt2, ?_, ?_, ?_, ?_, ?_, hcpos2⟩
    · rw [iterateRecs, bind_ok hstep]
      simp only [IterFlags.or, IterFlags.stops, Bool.or_false, Bool.false_eq_true, if_false,
        bind_ok hrun2, pure_run]
      rw [any_cons, Bool.or_assoc]
      rfl
    · exact hu.trans hv
    · rw [cutOuts_cons, flatMap_cons]
      exact forall_mem_append.mpr ⟨hst.frame fun b hb => hv.ebs b fun hb' =>
        hother b hb' (cutPair_kids hk hrend b hb), hst2⟩
    · rw [hp2, hpriv, flatMap_cons, freedCount_append, Nat.sub_sub]
    · rw [hlast2, hnote1, cutOuts_cons, flatMap_cons, treeLeaves_succ, treeLeaves_succ,
        treeLeaves_succ, flatMap_append, lastBlk_append]

/-- **The walk** of a well-formed tree does to the device what `cut` does to the tree. -/
theorem extentIterateEl_cut (hino : ino ≠ 0) : ∀ d, Walks fs ino N d
  | 0 => by
    intro right lo hi el ks s ctxt h hhi _ hready hfree hn hlo
    refine ⟨_, _, extentIterateEl_leaf hino h.1 hhi hfree hn, ?_, trivial, rfl, rfl,
      le_trans hlo h.recs_spaced.le, fun _ => rfl⟩
    exact touched_release hready.faults
  | d + 1 => by
    intro right lo hi el ks s ctxt h hhi hread hready hfree hn hlo
    obtain ⟨t, ctxt', hrun, h1, h2, h3, h4, h5⟩ := iterateRecs_node (extentIterateEl_cut hino d)
      h.1.tiled hhi h.pairs (readKids_succ.mp hread) hready hfree hn hlo
    refine ⟨t, ctxt', ?_, h1, h2, h3, h4, h5, nofun⟩
    rw [extentIterateEl, IterFlags.nothing, bind_ok hrun]
    rfl

end Ocfs2Tools
