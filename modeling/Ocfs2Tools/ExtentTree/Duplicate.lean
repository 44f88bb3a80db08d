import Ocfs2Tools.ExtentTree.Insert
import Ocfs2Tools.ExtentTree.Shape

/-!
# The copy of an extent tree: `duplicate_extent_block_et`

The copy goes through the records of a list from the last one to the first, copies what
hangs below each, and hands the number of the leftmost copied leaf on to the left, where
it becomes the next pointer of the copy before it. Records without clusters are passed
over, and their slots in the copy are zero. A tree that has none is copied as it is; a
tree with an empty branch is not.
-/

namespace Ocfs2Tools

open List Prog

variable {fs : Filesys} {s t u : St} {ebs : Nat → Option ExtentBlock} {d next first m : Nat}
  {rs news : List ExtentRec} {ks ks' : List Node} {new new' : List Nat}
  {b newBlkno : Nat} {eb : ExtentBlock} {a : Unit} {k : Node} {r : ExtentRec}
  {el : ExtentList}

/-! ### Allocating blocks and writing them -/

/-- From `s` to `t` nothing happened but that the blocks `new` were allocated and written,
    and that `i_last_eb_blk` may have moved. -/
structure Allocates (fs : Filesys) (s t : St) (new : List Nat) : Prop where
  nodup : new.Nodup
  free : ∀ b ∈ new, some b ∈ s.allocs ∧ s.dev.used 0 b = false ∧ outOfRange fs b = false
  taken : ∀ b ∈ new, t.dev.used 0 b = true
  mono : ∀ b, s.dev.used 0 b = true → t.dev.used 0 b = true
  allocs : ∀ a ∈ t.allocs, a ∈ s.allocs
  frame : ∀ b, b ∉ new → t.dev.ebs b = s.dev.ebs b
  list : t.root.iList = s.root.iList

theorem Allocates.refl (s : St) : Allocates fs s s [] where
  nodup := .nil
  free := by simp
  taken := by simp
  mono _ h := h
  allocs _ h := h
  frame _ _ := rfl
  list := rfl

theorem Allocates.fresh (h : Allocates fs s t new) (h' : Allocates fs t u new') :
    ∀ b ∈ new, b ∉ new' := by
  intro b hb hb'
  have h1 := h.taken b hb
  rw [(h'.free b hb').2.1] at h1
  cases h1

theorem Allocates.trans (h : Allocates fs s t new) (h' : Allocates fs t u new') :
    Allocates fs s u (new ++ new') where
  nodup := by
    rw [nodup_append]
    refine ⟨h.nodup, h'.nodup, fun a ha b hb => ?_⟩
    rintro rfl
    exact h.fresh h' a ha hb
  free b hb := by
    rcases mem_append.mp hb with hb | hb
    · exact h.free b hb
    · obtain ⟨h1, h2, h3⟩ := h'.free b hb
      refine ⟨h.allocs _ h1, ?_, h3⟩
      cases hu : s.dev.used 0 b with
      | false => rfl
      | true =>
        rw [h.mono b hu] at h2
        cases h2
  taken b hb := by
    rcases mem_append.mp hb with hb | hb
    · exact h'.mono b (h.taken b hb)
    · exact h'.taken b hb
  mono b hb := h'.mono b (h.mono b hb)
  allocs a ha := h.allocs a (h'.allocs a ha)
  frame b hb := by
    rw [mem_append, not_or] at hb
    rw [h'.frame b hb.2, h.frame b hb.1]
  list := h'.list.trans h.list

theorem Allocates.held (h : Allocates fs s t new) (hb : Held s b) : Held t b := by
  rcases hb with hb | hb
  · exact .inl (h.mono b hb)
  · exact .inr fun ha => hb (h.allocs _ ha)

theorem Allocates.not_mem (h : Allocates fs s t new) (hb : Held s b) : b ∉ new := by
  intro hn
  obtain ⟨h1, h2, -⟩ := h.free b hn
  rcases hb with hb | hb
  · rw [h2] at hb
    cases hb
  · exact hb h1

theorem newBlock_allocates {blkno old : Nat} {v : St} (hnew : NewBlock fs s blkno t)
    (hwrite : writeExtentBlock fs blkno eb t = some (.ok a, u))
    (hmove : moveLastEbBlk old blkno u = some (.ok a, v)) :
    Allocates fs s v [blkno] ∧ v.dev.ebs blkno = some eb ∧
      v.root.iLastEbBlk = if s.root.iLastEbBlk = old then blkno else s.root.iLastEbBlk := by
  obtain ⟨-, rfl⟩ := writeExtentBlock_inv hwrite
  cases hmove
  obtain ⟨halloc, hfree, hrange, rfl⟩ := hnew
  refine ⟨⟨by simp, ?_, ?_, ?_, ?_, ?_, rfl⟩, ?_, rfl⟩
  · simp only [mem_singleton, forall_eq]
    exact ⟨mem_of_mem_head? halloc, hfree, hrange⟩
  · simp [St.commit, St.advance, Device.setEb, Device.setUsed]
  · intro b hb
    simp only [St.commit, St.advance, Device.setEb, Device.setUsed]
    split
    · rfl
    · exact hb
  · intro x hx
    exact mem_of_mem_tail hx
  · intro b hb
    rw [mem_singleton] at hb
    simp [St.commit, St.advance, Device.setEb, Device.setUsed, hb]
  · simp [St.commit, St.advance, Device.setEb]

/-! ### What a copy is -/

/-- The two records differ only in the block they lead to. -/
def SameRec (r r' : ExtentRec) : Prop := r' = { r with eBlkno := r'.eBlkno }

/-- Two trees of one shape and with the same leaves. -/
def SameTree : Nat → ExtentList → List Node → ExtentList → List Node → Prop
  | 0, el, _, el', _ => el' = el
  | d + 1, el, ks, el', ks' => el'.lTreeDepth = el.lTreeDepth ∧ el'.lCount = el.lCount ∧
      el'.lNextFreeRec = el.lNextFreeRec ∧ List.Forall₂ SameRec el.live el'.live ∧
      List.Forall₂ (fun k k' => SameTree d k.eb.hList k.kids k'.eb.hList k'.kids) ks ks'

/-- The two blocks and what hangs below them are the same up to block numbers. -/
def SameNode (d : Nat) (k k' : Node) : Prop :=
  SameTree d k.eb.hList k.kids k'.eb.hList k'.kids

def firstLeafBlk (leaves : List ExtentBlock) (next : Nat) : Nat :=
  match leaves with
  | [] => next
  | eb :: _ => eb.hBlkno

/-- The leaves are chained, and the last one leads to `next`. -/
def ChainTo (next : Nat) : List ExtentBlock → Prop
  | [] => True
  | eb :: rest => eb.hNextLeafBlk = firstLeafBlk rest next ∧ ChainTo next rest

theorem firstLeafBlk_append (as bs : List ExtentBlock) (next : Nat) :
    firstLeafBlk (as ++ bs) next = firstLeafBlk as (firstLeafBlk bs next) := by
  cases as <;> rfl

theorem chainTo_append {bs : List ExtentBlock} : ∀ {as},
    ChainTo (firstLeafBlk bs next) as → ChainTo next bs → ChainTo next (as ++ bs)
  | [], _, h => h
  | _ :: as, h, h' => ⟨h.1.trans (firstLeafBlk_append as bs next).symm, chainTo_append h.2 h'⟩

theorem ChainTo.leafChain : ∀ {leaves}, ChainTo 0 leaves → LeafChain leaves
  | [], _ => trivial
  | [_], h => h.1
  | _ :: _ :: _, h => ⟨h.1, h.2.leafChain⟩

theorem lastLeafBlk_append {as bs : List ExtentBlock} (h : bs ≠ []) :
    lastLeafBlk (as ++ bs) = lastLeafBlk bs := by
  rw [lastLeafBlk, lastLeafBlk, getLast?_append_of_ne_nil _ h]

theorem lastLeafBlk_mem {leaves : List ExtentBlock} (h : leaves ≠ []) :
    ∃ eb ∈ leaves, lastLeafBlk leaves = eb.hBlkno := by
  refine ⟨leaves.getLast h, getLast_mem h, ?_⟩
  rw [lastLeafBlk, getLast?_eq_some_getLast h]

theorem leaf_mem_blocks (hread : readKids ebs d k.eb.hList = some k.kids)
    (h : eb ∈ nodeLeaves d k) : eb.hBlkno ∈ nodeBlocks d k := by
  cases d with
  | zero =>
    rw [nodeLeaves, mem_singleton] at h
    rw [h]
    exact mem_cons_self
  | succ d => exact mem_cons_of_mem _ (readKids_leaf hread eb h).2

theorem leaves_mem_blocks (hl : List.Forall₂ (Leads ebs d) rs ks)
    (h : eb ∈ ks.flatMap (nodeLeaves d)) : eb.hBlkno ∈ ks.flatMap (nodeBlocks d) := by
  obtain ⟨k, hk, h⟩ := mem_flatMap.mp h
  obtain ⟨r, -, hlead⟩ := forall₂_mem_right hl k hk
  exact mem_flatMap.mpr ⟨k, hk, leaf_mem_blocks hlead.kids h⟩

/-- The records `rs` lead to clusters, and so does every interior record below them. -/
def NoEmptyRecs (d : Nat) (rs : List ExtentRec) (ks : List Node) : Prop :=
  (∀ r ∈ rs, r.eIntClusters ≠ 0) ∧ ∀ k ∈ ks, NoEmptyBranch d k.eb.hList k.kids

theorem noEmptyRecs_cons : NoEmptyRecs d (r :: rs) (k :: ks) ↔
    NoEmptyRecs d [r] [k] ∧ NoEmptyRecs d rs ks := by
  simp only [NoEmptyRecs, forall_mem_cons]
  tauto

/-- The records `news` lead to copies `ks'` of the blocks `ks`, in the blocks `new` and
    chained to `next`. -/
structure KidsCopied (d : Nat) (rs : List ExtentRec) (ks : List Node) (next : Nat) (s : St)
    (news : List ExtentRec) (first : Nat) (t : St) (new : List Nat) (ks' : List Node) :
    Prop where
  leads : List.Forall₂ (Leads t.dev.ebs d) news ks'
  recs : List.Forall₂ SameRec rs news
  same : List.Forall₂ (SameNode d) ks ks'
  leaves : (ks'.flatMap (nodeLeaves d)).map ExtentBlock.hList =
    (ks.flatMap (nodeLeaves d)).map ExtentBlock.hList
  blocks : (ks'.flatMap (nodeBlocks d)).Perm new
  chain : ChainTo next (ks'.flatMap (nodeLeaves d))
  first : first = firstLeafBlk (ks'.flatMap (nodeLeaves d)) next
  last : ks.flatMap (nodeLeaves d) ≠ [] →
    s.root.iLastEbBlk = lastLeafBlk (ks.flatMap (nodeLeaves d)) →
    t.root.iLastEbBlk = lastLeafBlk (ks'.flatMap (nodeLeaves d))

/-- What the loop has done for the records `rs` that lead to `ks`: a copy, unless a record
    without clusters was passed over; then block 0 is among the blocks of the result. -/
structure Copies (fs : Filesys) (d : Nat) (rs : List ExtentRec) (ks : List Node) (next : Nat)
    (s : St) (news : List ExtentRec) (first : Nat) (t : St) (new : List Nat) : Prop where
  alloc : Allocates fs s t new
  length : news.length = rs.length
  keeps : s.root.iLastEbBlk ∉ ks.flatMap (nodeBlocks d) → t.root.iLastEbBlk = s.root.iLastEbBlk
  copied : NoEmptyRecs d rs ks → ∃ ks', KidsCopied d rs ks next s news first t new ks'
  lost : ¬ NoEmptyRecs d rs ks → ∀ ebs : Nat → Option ExtentBlock,
    (∀ b ∈ new, ebs b = t.dev.ebs b) → ∀ ks', List.Forall₂ (Leads ebs d) news ks' →
    0 ∈ ks'.flatMap (nodeBlocks d)

theorem Copies.nil (s : St) : Copies fs d [] [] next s [] next s [] where
  alloc := .refl s
  length := rfl
  keeps _ := rfl
  copied _ := ⟨[], .nil, .nil, .nil, rfl, .nil, trivial, rfl, fun h => absurd rfl h⟩
  lost h := absurd ⟨by simp, by simp⟩ h

theorem KidsCopied.leaves_ne (h : KidsCopied d rs ks next s news first t new ks')
    (hne : ks.flatMap (nodeLeaves d) ≠ []) : ks'.flatMap (nodeLeaves d) ≠ [] := by
  intro hnil
  have := h.leaves
  rw [hnil, map_nil, eq_comm, map_eq_nil_iff] at this
  exact hne this

theorem KidsCopied.last_mem (h : KidsCopied d rs ks next s news first t new ks')
    (hne : ks.flatMap (nodeLeaves d) ≠ [])
    (ht : t.root.iLastEbBlk = lastLeafBlk (ks'.flatMap (nodeLeaves d))) :
    t.root.iLastEbBlk ∈ new := by
  obtain ⟨eb, heb, hlb⟩ := lastLeafBlk_mem (h.leaves_ne hne)
  rw [ht, hlb]
  exact h.blocks.subset (leaves_mem_blocks h.leads heb)

theorem KidsCopied.cons {r r' : ExtentRec} {k k' : Node}
    (hd : Allocates fs s t new) (hd' : Allocates fs t u new')
    (hkeeps : t.root.iLastEbBlk ∉ nodeBlocks d k → u.root.iLastEbBlk = t.root.iLastEbBlk)
    (hold : ∀ b ∈ nodeBlocks d k, Held s b) (h : KidsCopied d rs ks next s news m t new ks')
    (h' : KidsCopied d [r] [k] m t [r'] first u new' [k'])
    (hst : ks.flatMap (nodeLeaves d) = [] → t = s) :
    KidsCopied d (r :: rs) (k :: ks) next s (r' :: news) first u (new ++ new') (k' :: ks') := by
  have hleads : List.Forall₂ (Leads u.dev.ebs d) news ks' :=
    leads_frame_all h.leads fun b hb => hd'.frame b (hd.fresh hd' b (h.blocks.subset hb))
  obtain ⟨hlead, hrec, hsame, hleaves, hblocks, hchain, hfirst, hlast⟩ := h'
  simp only [flatMap_singleton] at hleaves hblocks hchain hfirst hlast
  refine ⟨.cons (forall₂_cons.mp hlead).1 hleads, .cons (forall₂_cons.mp hrec).1 h.recs,
    .cons (forall₂_cons.mp hsame).1 h.same, ?_, ?_, ?_, ?_, ?_⟩
  · rw [flatMap_cons, flatMap_cons, map_append, map_append, h.leaves, hleaves]
  · exact (hblocks.append h.blocks).trans perm_append_comm
  · exact chainTo_append (h.first ▸ hchain) h.chain
  · rw [flatMap_cons, firstLeafBlk_append, ← h.first]
    exact hfirst
  · rw [flatMap_cons, flatMap_cons]
    intro hne hs
    by_cases hnil : ks.flatMap (nodeLeaves d) = []
    · -- nothing was copied yet: the last leaf is below the block itself
      have hnil' : ks'.flatMap (nodeLeaves d) = [] := by
        have := h.leaves
        rw [hnil, map_nil, map_eq_nil_iff] at this
        exact this
      rw [hnil, append_nil] at hne hs
      rw [hnil', append_nil]
      exact hlast hne (by rw [hst hnil]; exact hs)
    · rw [lastLeafBlk_append hnil] at hs
      have ht := h.last hnil hs
      rw [lastLeafBlk_append (h.leaves_ne hnil), ← ht]
      -- it has moved to a new block, which is none of the old ones
      exact hkeeps fun hk => hd.not_mem (hold _ hk) (h.last_mem hnil ht)

theorem Copies.cons {r r' : ExtentRec} (h : Copies fs d rs ks next s news m t new)
    (h' : Copies fs d [r] [k] m t [r'] first u new') (hold : ∀ b ∈ nodeBlocks d k, Held s b)
    (hst : ks.flatMap (nodeLeaves d) = [] → t = s) :
    Copies fs d (r :: rs) (k :: ks) next s (r' :: news) first u (new ++ new') where
  alloc := h.alloc.trans h'.alloc
  length := by rw [length_cons, length_cons, h.length]
  keeps hk := by
    rw [flatMap_cons, mem_append, not_or] at hk
    have ht := h.keeps hk.2
    rw [h'.keeps (by rw [flatMap_singleton, ht]; exact hk.1), ht]
  copied hne := by
    obtain ⟨h1, h2⟩ := noEmptyRecs_cons.mp hne
    obtain ⟨ks', hks⟩ := h.copied h2
    obtain ⟨js, hjs⟩ := h'.copied h1
    obtain ⟨k', js', hlead, hnil, rfl⟩ := forall₂_cons_left_iff.mp hjs.leads
    rw [forall₂_nil_left_iff] at hnil
    subst hnil
    have hkeeps := h'.keeps
    rw [flatMap_singleton] at hkeeps
    exact ⟨k' :: ks', hks.cons h.alloc h'.alloc hkeeps hold hjs hst⟩
  lost hne ebs hebs js hl := by
    obtain ⟨k', ks', hlead, hleads, rfl⟩ := forall₂_cons_left_iff.mp hl
    rw [flatMap_cons, mem_append]
    rw [noEmptyRecs_cons, not_and_or] at hne
    rcases hne with hne | hne
    · refine .inl ?_
      have := h'.lost hne ebs (fun b hb => hebs b (mem_append_right _ hb)) [k'] (.cons hlead .nil)
      rwa [flatMap_singleton] at this
    · refine .inr (h.lost hne ebs (fun b hb => ?_) ks' hleads)
      rw [hebs b (mem_append_left _ hb), h'.alloc.frame b (h.alloc.fresh h'.alloc b hb)]

theorem Copies.passed (hr : r.eIntClusters = 0) :
    Copies fs d [r] [k] m s [ExtentRec.zero] m s [] where
  alloc := .refl s
  length := rfl
  keeps _ := rfl
  copied h := absurd hr (h.1 r mem_cons_self)
  lost _ ebs _ js hl := by
    obtain ⟨k', js', hlead, -, rfl⟩ := forall₂_cons_left_iff.mp hl
    rw [flatMap_cons, mem_append, nodeBlocks, hlead.blkno]
    exact .inl mem_cons_self

/-! ### The functions -/

def copiedList (el : ExtentList) (news : List ExtentRec) : ExtentList :=
  { el with lRecs := news ++ List.replicate (el.lCount - el.lNextFreeRec) ExtentRec.zero }

theorem copiedList_live (hle : el.lNextFreeRec ≤ el.lCount) (hlen : news.length = el.live.length) :
    (copiedList el news).live = news := by
  rw [ExtentList.live_length hle] at hlen
  simp only [ExtentList.live, copiedList, ← hlen]
  exact take_left

theorem copiedList_lCount (hle : el.lNextFreeRec ≤ el.lCount)
    (hlen : news.length = el.live.length) : (copiedList el news).lCount = el.lCount := by
  rw [ExtentList.live_length hle] at hlen
  rw [ExtentList.lCount, copiedList, length_append, length_replicate, hlen]
  exact Nat.add_sub_cancel' hle

/-- `dup` copies lists of depth `d + 1`. -/
def Duplicates (fs : Filesys) (d : Nat) (dup : ExtentList → Nat → M (ExtentList × Nat)) : Prop :=
  ∀ el ks next s el' first t, Shaped (d + 1) el ks → readKids s.dev.ebs (d + 1) el = some ks →
    (∀ b ∈ treeBlocks (d + 1) ks, Held s b) → dup el next s = some (.ok (el', first), t) →
    ∃ new news, el' = copiedList el news ∧ Copies fs d el.live ks next s news first t new

theorem copies_leaf (hr : r.eIntClusters ≠ 0) (hshape : Shaped 0 k.eb.hList k.kids)
    (hblk : k.eb.hBlkno = r.eBlkno) (halloc : Allocates fs s t [newBlkno])
    (hcopy : t.dev.ebs newBlkno = some (copyOf k.eb newBlkno m k.eb.hList))
    (hlast : t.root.iLastEbBlk =
      if s.root.iLastEbBlk = r.eBlkno then newBlkno else s.root.iLastEbBlk) :
    Copies fs 0 [r] [k] m s [{ r with eBlkno := newBlkno }] newBlkno t [newBlkno] where
  alloc := halloc
  length := rfl
  keeps hk := by
    rw [flatMap_singleton, nodeBlocks, mem_cons, not_or, hblk] at hk
    rw [hlast, if_neg hk.1]
  copied _ := by
    refine ⟨[⟨copyOf k.eb newBlkno m k.eb.hList, []⟩], .cons ⟨hcopy, rfl, rfl⟩ .nil,
      .cons rfl .nil, .cons rfl .nil, rfl, .refl _, ⟨?_, trivial⟩, rfl, fun _ hs => ?_⟩
    · rw [copyOf, if_pos hshape.depth]
      rfl
    · rw [hlast, if_pos (hs.trans hblk)]
      rfl
  lost h := absurd ⟨by simpa using hr, fun _ _ => trivial⟩ h

theorem copies_node (hr : r.eIntClusters ≠ 0) (hshape : Shaped (d + 1) k.eb.hList k.kids)
    (hlead : Leads s.dev.ebs (d + 1) r k) (hheld : ∀ b ∈ nodeBlocks (d + 1) k, Held s b)
    (hkids : Copies fs d k.eb.hList.live k.kids m s news first t new)
    (halloc : Allocates fs t u [newBlkno])
    (hcopy : u.dev.ebs newBlkno = some (copyOf k.eb newBlkno first (copiedList k.eb.hList news)))
    (hlast : u.root.iLastEbBlk =
      if t.root.iLastEbBlk = r.eBlkno then newBlkno else t.root.iLastEbBlk) :
    Copies fs (d + 1) [r] [k] m s [{ r with eBlkno := newBlkno }] first u (new ++ [newBlkno]) where
  alloc := hkids.alloc.trans halloc
  length := rfl
  keeps hk := by
    rw [flatMap_singleton, nodeBlocks, mem_cons, not_or, hlead.blkno] at hk
    have ht := hkids.keeps hk.2
    rw [hlast, ht, if_neg hk.1]
  copied hne := by
    obtain ⟨ks', h⟩ := hkids.copied (hne.2 k mem_cons_self)
    have hlive := copiedList_live hshape.le hkids.length
    have hleads : List.Forall₂ (Leads u.dev.ebs d) (copiedList k.eb.hList news).live ks' := by
      rw [hlive]
      exact leads_frame_all h.leads fun b hb =>
        halloc.frame b (hkids.alloc.fresh halloc b (h.blocks.subset hb))
    refine ⟨[⟨copyOf k.eb newBlkno first (copiedList k.eb.hList news), ks'⟩],
      .cons ⟨hcopy, rfl, readKids_succ.mpr hleads⟩ .nil, .cons rfl .nil,
      .cons ⟨rfl, copiedList_lCount hshape.le hkids.length, rfl, ?_, h.same⟩ .nil,
      ?_, ?_, ?_, ?_, ?_⟩
    · exact hlive.symm ▸ h.recs
    all_goals simp only [flatMap_singleton, nodeLeaves, treeLeaves_succ, nodeBlocks,
      treeBlocks_succ]
    · exact h.leaves
    · exact (h.blocks.cons newBlkno).trans (perm_append_singleton newBlkno new).symm
    · exact h.chain
    · exact h.first
    · intro hne' hs
      have ht := h.last hne' hs
      have hold : r.eBlkno ∉ new := by
        rw [← hlead.blkno]
        exact hkids.alloc.not_mem (hheld _ mem_cons_self)
      have hold' : t.root.iLastEbBlk ≠ r.eBlkno := fun he => hold (he ▸ h.last_mem hne' ht)
      exact hlast.trans ((if_neg hold').trans ht)
  lost hne ebs hebs js hl := by
    obtain ⟨k', js', hlead', -, rfl⟩ := forall₂_cons_left_iff.mp hl
    have heb : k'.eb = copyOf k.eb newBlkno first (copiedList k.eb.hList news) := by
      have := hlead'.eb
      rw [hebs newBlkno (by simp), hcopy] at this
      exact (Option.some.inj this).symm
    have hlive : k'.eb.hList.live = news := by
      rw [heb]
      exact copiedList_live hshape.le hkids.length
    have hleads := readKids_succ.mp hlead'.kids
    rw [hlive] at hleads
    have hsub : ¬ NoEmptyRecs d k.eb.hList.live k.kids := by
      intro hok
      refine hne ⟨by simpa using hr, fun j hj => ?_⟩
      rw [mem_singleton.mp hj]
      exact hok
    have h0 := hkids.lost hsub ebs (fun b hb => by
      rw [hebs b (mem_append_left _ hb), halloc.frame b (hkids.alloc.fresh halloc b hb)])
      k'.kids hleads
    rw [flatMap_cons, mem_append]
    exact .inl (mem_cons_of_mem _ h0)

section Kids

variable {dup : ExtentList → Nat → M (ExtentList × Nat)}
  (hdup : ∀ d', d = d' + 1 → Duplicates fs d' dup)

include hdup

theorem duplicateBlock_copies (hr : r.eIntClusters ≠ 0)
    (hshape : Shaped d k.eb.hList k.kids) (hlead : Leads s.dev.ebs d r k)
    (hheld : ∀ b ∈ nodeBlocks d k, Held s b)
    (h : duplicateBlock fs dup r m s = some (.ok (newBlkno, first), t)) :
    ∃ new, Copies fs d [r] [k] m s [{ r with eBlkno := newBlkno }] first t new := by
  obtain ⟨eb, s0, hread, h⟩ := bind_eq_ok h
  obtain ⟨rfl, heb, -⟩ := readExtentBlock_inv hread
  obtain rfl : eb = k.eb := Option.some.inj (heb.symm.trans hlead.eb)
  obtain ⟨⟨el, m'⟩, s1, hkids, h⟩ := bind_eq_ok h
  obtain ⟨⟨blkno, ret⟩, s2, hnew, h⟩ := bind_eq_ok h
  obtain ⟨⟨⟩, s3, hret, h⟩ := bind_eq_ok h
  obtain ⟨⟨⟩, s4, hwrite, h⟩ := bind_eq_ok h
  obtain ⟨⟨⟩, s5, hmove, h⟩ := bind_eq_ok h
  cases h
  cases ret with
  | error e => cases hret
  | ok a =>
    cases hret
    obtain ⟨halloc, hcopy, hlast⟩ := newBlock_allocates (newExtentBlock_inv hnew) hwrite hmove
    rw [duplicateKids, hshape.depth] at hkids
    rw [hshape.depth]
    cases d with
    | zero =>
      cases hkids
      exact ⟨_, copies_leaf hr hshape hlead.blkno halloc hcopy hlast⟩
    | succ d =>
      obtain ⟨new, news, rfl, hc⟩ := hdup d rfl _ _ _ _ _ _ _ hshape hlead.kids
        (fun b hb => hheld b (mem_cons_of_mem _ hb)) hkids
      exact ⟨_, copies_node hr hshape hlead hheld hc halloc hcopy hlast⟩

theorem duplicateRecs_copies : ∀ {rs news ks first t a},
    (∀ k ∈ ks, Shaped d k.eb.hList k.kids) → List.Forall₂ (Leads s.dev.ebs d) rs ks →
    (∀ b ∈ ks.flatMap (nodeBlocks d), Held s b) →
    duplicateRecs fs dup (d + 1) rs next s = some (.ok (news, first, .ok a), t) →
    ∃ new, Copies fs d rs ks next s news first t new ∧ (rs = [] → t = s)
  | [], _, _, _, _, _, _, .nil, _, h => by
    cases h
    exact ⟨[], .nil s, fun _ => rfl⟩
  | r :: rs, _, k :: ks, _, _, _, hshape, .cons hlead hleads, hheld, h => by
    obtain ⟨⟨news, m, ret⟩, u, hrest, h⟩ := bind_eq_ok h
    cases ret with
    | error e => cases h
    | ok x =>
      obtain ⟨new, hc, hst⟩ := duplicateRecs_copies
        (fun k hk => hshape k (mem_cons_of_mem _ hk)) hleads
        (fun b hb => hheld b (mem_append_right _ hb)) hrest
      have hold : ∀ b ∈ nodeBlocks d k, Held s b := fun b hb =>
        hheld b (mem_append_left _ hb)
      -- without leaves to the right there are no records there, and nothing was done
      have hst' : ks.flatMap (nodeLeaves d) = [] → u = s := by
        intro hnil
        apply hst
        cases hleads with
        | nil => rfl
        | cons hl _ =>
          rw [flatMap_cons, append_eq_nil_iff] at hnil
          exact absurd hnil.1 (Shaped.nodeLeaves_ne (hshape _ (by simp)) hl.kids)
      simp only [recClusters, Nat.succ_ne_zero, if_false] at h
      split at h
      · rename_i hr
        cases h
        exact ⟨_, hc.cons (.passed hr) hold hst', nofun⟩
      · rename_i hr
        obtain ⟨r', v, hr', h⟩ := bind_eq_ok h
        obtain ⟨r1, hr1, hdb⟩ := attempt_eq hr'
        cases hr1
        cases r' with
        | error e => cases h
        | ok p =>
          cases h
          have hlead' : Leads u.dev.ebs d r k := hlead.frame fun b hb =>
            hc.alloc.frame b (hc.alloc.not_mem (hold b hb))
          obtain ⟨new', hc'⟩ := duplicateBlock_copies hdup hr (hshape k mem_cons_self)
            hlead' (fun b hb => hc.alloc.held (hold b hb)) hdb
          exact ⟨_, hc.cons hc' hold hst', nofun⟩

end Kids

theorem duplicateExtentBlock_copies : ∀ d, Duplicates fs d (duplicateExtentBlock fs (d + 1))
  | d, el, ks, next, s, el', first, t, hshape, hread, hheld, h => by
    obtain ⟨⟨⟩, s1, hcheck, h⟩ := bind_eq_ok h
    obtain ⟨-, -, rfl⟩ := check_inv hcheck
    split at h
    · cases h
    · obtain ⟨⟨news, m, ret⟩, u, hrecs, h⟩ := bind_eq_ok h
      cases ret with
      | error e =>
        obtain ⟨⟨⟩, v, -, h⟩ := bind_eq_ok h
        cases h
      | ok a =>
        cases h
        rw [hshape.depth] at hrecs
        have hdup : ∀ d', d = d' + 1 → Duplicates fs d' (duplicateExtentBlock fs d) := by
          rintro d' rfl
          exact duplicateExtentBlock_copies d'
        obtain ⟨new, hc, -⟩ := duplicateRecs_copies hdup hshape.2.2.2 (readKids_succ.mp hread)
          hheld hrecs
        exact ⟨new, news, rfl, hc⟩

/-! ### The whole tree -/

/-- After `duplicate_extent_block_et` the root buffer leads to a copy of the tree `ks` it led
    to before. -/
structure IsCopy (fs : Filesys) (s t : St) (ks ks' : List Node) : Prop where
  read : readKids t.dev.ebs s.root.iList.lTreeDepth t.root.iList = some ks'
  same : SameTree s.root.iList.lTreeDepth s.root.iList ks t.root.iList ks'
  recs : treeRecs s.root.iList.lTreeDepth t.root.iList ks' =
    treeRecs s.root.iList.lTreeDepth s.root.iList ks
  fresh : ∀ b ∈ treeBlocks s.root.iList.lTreeDepth ks',
    some b ∈ s.allocs ∧ s.dev.used 0 b = false ∧ t.dev.used 0 b = true ∧ outOfRange fs b = false
  nodup : (treeBlocks s.root.iList.lTreeDepth ks').Nodup
  chain : LeafChain (treeLeaves s.root.iList.lTreeDepth ks')
  last : t.root.iLastEbBlk = lastLeafBlk (treeLeaves s.root.iList.lTreeDepth ks')
  old : ∀ b ∈ treeBlocks s.root.iList.lTreeDepth ks, t.dev.ebs b = s.dev.ebs b

section Finished

variable (hd : s.root.iList.lTreeDepth = d + 1)
  (hread : readKids s.dev.ebs (d + 1) s.root.iList = some ks)
  (hshape : Shaped (d + 1) s.root.iList ks) (hheld : ∀ b ∈ treeBlocks (d + 1) ks, Held s b)
  (h : duplicateExtentBlockEt fs s = some (.ok a, t))

include hd hread hshape hheld h

theorem duplicateExtentBlockEt_inv :
    ∃ new news first u, Copies fs d s.root.iList.live ks 0 s news first u new ∧
      t = { u with root := { u.root with iList := copiedList s.root.iList news } } := by
  obtain ⟨s0, s1, hget, h⟩ := bind_eq_ok h
  cases hget
  obtain ⟨⟨⟩, s2, hcheck, h⟩ := bind_eq_ok h
  obtain ⟨-, -, rfl⟩ := check_inv hcheck
  obtain ⟨⟨el, first⟩, u, hdup, h⟩ := bind_eq_ok h
  cases h
  rw [hd] at hdup
  obtain ⟨new, news, rfl, hc⟩ :=
    duplicateExtentBlock_copies d _ _ _ _ _ _ _ hshape hread hheld hdup
  exact ⟨new, news, first, u, hc, rfl⟩

theorem isCopy_of_noEmptyBranch (hlast : s.root.iLastEbBlk = lastLeafBlk (treeLeaves (d + 1) ks))
    (hne : NoEmptyBranch (d + 1) s.root.iList ks) : ∃ ks', IsCopy fs s t ks ks' := by
  obtain ⟨new, news, first, u, hc, rfl⟩ := duplicateExtentBlockEt_inv hd hread hshape hheld h
  obtain ⟨ks', hk⟩ := hc.copied hne
  have hlive := copiedList_live hshape.le hc.length
  have hmem : ∀ b ∈ treeBlocks (d + 1) ks', b ∈ new := fun b hb => hk.blocks.subset hb
  refine ⟨ks', ?_⟩
  constructor
  all_goals rw [hd]
  · exact readKids_succ.mpr (hlive.symm ▸ hk.leads)
  · exact ⟨rfl, copiedList_lCount hshape.le hc.length, rfl, hlive.symm ▸ hk.recs, hk.same⟩
  · rw [treeRecs_eq_leaves, treeRecs_eq_leaves, treeLeaves_succ, treeLeaves_succ,
      ← flatMap_map ExtentBlock.hList, hk.leaves, flatMap_map]
  · intro b hb
    obtain ⟨h1, h2, h3⟩ := hc.alloc.free b (hmem b hb)
    exact ⟨h1, h2, hc.alloc.taken b (hmem b hb), h3⟩
  · exact hk.blocks.nodup_iff.mpr hc.alloc.nodup
  · rw [treeLeaves_succ]
    exact hk.chain.leafChain
  · have hleaves := hshape.treeLeaves_ne hread
    rw [treeLeaves_succ] at hlast hleaves ⊢
    exact hk.last hleaves hlast
  · exact fun b hb => hc.alloc.frame b (hc.alloc.not_mem (hheld b hb))

theorem not_isCopy_of_empty_branch (hne : ¬ NoEmptyBranch (d + 1) s.root.iList ks)
    (ks' : List Node) : ¬ IsCopy fs s t ks ks' := by
  obtain ⟨new, news, first, u, hc, rfl⟩ := duplicateExtentBlockEt_inv hd hread hshape hheld h
  intro hcopy
  have hread' := hcopy.read
  have hfresh := hcopy.fresh
  rw [hd] at hread' hfresh
  have hlive := copiedList_live hshape.le hc.length
  have h0 := hc.lost hne u.dev.ebs (fun _ _ => rfl) ks' (hlive ▸ readKids_succ.mp hread')
  have hrange := (hfresh 0 h0).2.2.2
  cases hrange

end Finished

/-- A finished `duplicate_extent_block_et` has copied the tree exactly if no interior record
    of it is without clusters. Such a record, as a branch just added has them on the right
    edge, is zero in the copy, and `i_last_eb_blk` stays with the old tree. -/
theorem duplicateExtentBlockEt_isCopy_iff {a : Unit} (hpos : 0 < s.root.iList.lTreeDepth)
    (hread : readKids s.dev.ebs s.root.iList.lTreeDepth s.root.iList = some ks)
    (hshape : Shaped s.root.iList.lTreeDepth s.root.iList ks)
    (hlast : s.root.iLastEbBlk = lastLeafBlk (treeLeaves s.root.iList.lTreeDepth ks))
    (hheld : ∀ b ∈ treeBlocks s.root.iList.lTreeDepth ks, Held s b)
    (h : duplicateExtentBlockEt fs s = some (.ok a, t)) :
    (∃ ks', IsCopy fs s t ks ks') ↔ NoEmptyBranch s.root.iList.lTreeDepth s.root.iList ks := by
  obtain ⟨d, hd⟩ : ∃ d, s.root.iList.lTreeDepth = d + 1 := ⟨_, (Nat.succ_pred_eq_of_pos hpos).symm⟩
  rw [hd] at hread hshape hlast hheld ⊢
  constructor
  · rintro ⟨ks', hcopy⟩
    by_contra hne
    exact not_isCopy_of_empty_branch hd hread hshape hheld h hne ks' hcopy
  · exact isCopy_of_noEmptyBranch hd hread hshape hheld h hlast

theorem duplicateExtentBlockEt_isCopy_two :
    ∃ t ks', duplicateExtentBlockEt smallFs (smallSt twoLeaves twoLeafInode [some 20, some 21]) =
      some (.ok (), t) ∧ IsCopy smallFs (smallSt twoLeaves twoLeafInode [some 20, some 21]) t
        (twoLeaves.map (Node.mk · [])) ks' := by
  obtain ⟨⟨⟩, t, hrun⟩ := Prog.returns_true (m := duplicateExtentBlockEt smallFs)
    (s := smallSt twoLeaves twoLeafInode [some 20, some 21]) (by decide +kernel)
  have hused : ∀ b ∈ treeBlocks 1 (twoLeaves.map (Node.mk · [])),
      (smallSt twoLeaves twoLeafInode [some 20, some 21]).dev.used 0 b = true := by decide
  obtain ⟨ks', hcopy⟩ := (duplicateExtentBlockEt_isCopy_iff
    (by decide) rfl (by decide) rfl
    (fun b hb => .inl (hused b hb)) hrun).mpr (by decide)
  exact ⟨t, ks', hrun, hcopy⟩

def addedSt : St := smallSt addedLeaves addedInode [some 20, some 21, some 22]

theorem duplicateExtentBlockEt_added_branch :
    (readKids addedSt.dev.ebs 1 addedInode.iList = some (addedLeaves.map (Node.mk · [])) ∧
      Shaped 1 addedInode.iList (addedLeaves.map (Node.mk · [])) ∧
      LeafChain addedLeaves ∧ addedInode.iLastEbBlk = lastLeafBlk addedLeaves) ∧
    ∃ t, duplicateExtentBlockEt smallFs addedSt = some (.ok (), t) ∧
      ¬ ∃ ks', IsCopy smallFs addedSt t (addedLeaves.map (Node.mk · [])) ks' := by
  have hread : readKids addedSt.dev.ebs 1 addedInode.iList =
      some (addedLeaves.map (Node.mk · [])) := rfl
  have hshape : Shaped 1 addedInode.iList (addedLeaves.map (Node.mk · [])) := by decide
  have hused : ∀ b ∈ treeBlocks 1 (addedLeaves.map (Node.mk · [])),
      addedSt.dev.used 0 b = true := by decide
  obtain ⟨⟨⟩, t, hrun⟩ := Prog.returns_true (m := duplicateExtentBlockEt smallFs)
    (s := addedSt) (by decide +kernel)
  refine ⟨⟨hread, hshape, by decide, rfl⟩, t, hrun, ?_⟩
  rintro ⟨ks', hcopy⟩
  exact not_isCopy_of_empty_branch rfl hread hshape
    (fun b hb => .inl (hused b hb)) hrun (by decide) ks' hcopy

end Ocfs2Tools
