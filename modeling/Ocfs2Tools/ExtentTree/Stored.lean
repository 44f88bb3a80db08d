import Ocfs2Tools.ExtentTree.WellFormed

/-!
# Facts about trees read from the device

How `readKids` unfolds along a list, that it only depends on the blocks of the tree
it returns, and what `WfList` says about the records and leaves below a list.
-/

namespace Ocfs2Tools

open List ExtentRec

variable {ebs ebs' : Nat → Option ExtentBlock} {fs : Filesys}
  {d lo hi : Nat} {el : ExtentList} {ks : List Node} {r : ExtentRec} {k : Node}

/-! ### Reading -/

/-- At depth `d`, a record leads to a block and to what hangs below it. -/
structure Leads (ebs : Nat → Option ExtentBlock) (d : Nat) (r : ExtentRec) (k : Node) : Prop where
  eb : ebs r.eBlkno = some k.eb
  blkno : k.eb.hBlkno = r.eBlkno
  kids : readKids ebs d k.eb.hList = some k.kids

theorem readKids_succ :
    readKids ebs (d + 1) el = some ks ↔ List.Forall₂ (Leads ebs d) el.live ks := by
  rw [readKids, optAll_eq_some]
  suffices hstep : ∀ r k, _ = some k ↔ Leads ebs d r k from
    ⟨fun h => h.imp fun r k => (hstep r k).mp, fun h => h.imp fun r k => (hstep r k).mpr⟩
  rintro r ⟨eb, sub⟩
  cases h : ebs r.eBlkno with
  | none =>
    simp only [reduceCtorEq, false_iff]
    intro hl
    have := hl.eb
    rw [h] at this
    cases this
  | some eb' =>
    by_cases hb : eb'.hBlkno = r.eBlkno
    · simp only [hb, if_true, Option.map_eq_some_iff, Node.mk.injEq]
      constructor
      · rintro ⟨a, ha, rfl, rfl⟩
        exact ⟨h, hb, ha⟩
      · intro hl
        have heb : eb' = eb := Option.some.inj (h.symm.trans hl.eb)
        subst heb
        exact ⟨_, hl.kids, rfl, rfl⟩
    · simp only [hb, if_false, reduceCtorEq, false_iff]
      intro hl
      have heb : eb' = eb := Option.some.inj (h.symm.trans hl.eb)
      subst heb
      exact hb hl.blkno

theorem mem_treeBlocks_succ {b : Nat} :
    b ∈ treeBlocks (d + 1) ks ↔ ∃ k ∈ ks, b = k.eb.hBlkno ∨ b ∈ treeBlocks d k.kids := by
  simp only [treeBlocks, mem_flatMap, mem_cons]

theorem readKids_frame : ∀ {d el ks},
    readKids ebs d el = some ks → (∀ b ∈ treeBlocks d ks, ebs' b = ebs b) →
    readKids ebs' d el = some ks
  | 0, _, _, h, _ => h
  | d + 1, el, ks, h, hb => by
    rw [readKids_succ] at h ⊢
    refine forall₂_imp_mem h fun r _ k hk hl => ⟨?_, hl.blkno, ?_⟩
    · rw [hb _ (mem_treeBlocks_succ.mpr ⟨k, hk, .inl hl.blkno.symm⟩), hl.eb]
    · exact readKids_frame hl.kids fun b hb' => hb b (mem_treeBlocks_succ.mpr ⟨k, hk, .inr hb'⟩)

theorem readKids_congr {el' : ExtentList} (h : el.live = el'.live) :
    readKids ebs d el = readKids ebs d el' := by
  cases d with
  | zero => rfl
  | succ d => rw [readKids, readKids, h]

def nodeBlocks (d : Nat) (k : Node) : List Nat := k.eb.hBlkno :: treeBlocks d k.kids

theorem treeBlocks_succ (d : Nat) (ks : List Node) :
    treeBlocks (d + 1) ks = ks.flatMap (nodeBlocks d) := rfl

theorem Leads.frame (h : Leads ebs d r k) (hb : ∀ b ∈ nodeBlocks d k, ebs' b = ebs b) :
    Leads ebs' d r k := by
  refine ⟨?_, h.blkno, readKids_frame h.kids fun b hb' => hb b (mem_cons_of_mem _ hb')⟩
  rw [hb _ (by rw [← h.blkno]; exact mem_cons_self ..), h.eb]

theorem leads_frame_all : ∀ {rs ks},
    List.Forall₂ (Leads ebs d) rs ks → (∀ b ∈ ks.flatMap (nodeBlocks d), ebs' b = ebs b) →
    List.Forall₂ (Leads ebs' d) rs ks
  | _, _, .nil, _ => .nil
  | _, k :: ks, .cons h hs, hb => by
    exact .cons (h.frame fun b hb' => hb b (mem_append_left _ hb'))
      (leads_frame_all hs fun b hb' => hb b (mem_append_right _ hb'))

theorem readKids_concat {rs : List ExtentRec} {js : List Node} (hlive : el.live = rs ++ [r])
    (hlen : rs.length = js.length) : readKids ebs (d + 1) el = some (js ++ [k]) ↔
      List.Forall₂ (Leads ebs d) rs js ∧ Leads ebs d r k := by
  rw [readKids_succ, hlive, forall₂_append hlen]
  simp

/-! ### Leaves -/

theorem readKids_leaf : ∀ {d el ks}, readKids ebs d el = some ks → ∀ eb ∈ treeLeaves d ks,
      ebs eb.hBlkno = some eb ∧ eb.hBlkno ∈ treeBlocks d ks
  | 0, _, _, _, eb, he => by cases he
  | 1, el, ks, h, eb, he => by
    rw [readKids_succ] at h
    obtain ⟨k, hk, rfl⟩ := mem_map.mp he
    obtain ⟨r, -, hl⟩ := forall₂_mem_right h k hk
    exact ⟨by rw [hl.blkno]; exact hl.eb, mem_treeBlocks_succ.mpr ⟨k, hk, .inl rfl⟩⟩
  | d + 2, el, ks, h, eb, he => by
    rw [readKids_succ] at h
    obtain ⟨k, hk, he⟩ := mem_flatMap.mp he
    obtain ⟨r, -, hl⟩ := forall₂_mem_right h k hk
    have := readKids_leaf hl.kids eb he
    exact ⟨this.1, mem_treeBlocks_succ.mpr ⟨k, hk, .inr this.2⟩⟩

def nodeLeaves : Nat → Node → List ExtentBlock
  | 0, k => [k.eb]
  | d + 1, k => treeLeaves (d + 1) k.kids

theorem treeLeaves_succ : ∀ d ks, treeLeaves (d + 1) ks = ks.flatMap (nodeLeaves d)
  | 0, ks => by
    simp only [treeLeaves]
    induction ks with
    | nil => rfl
    | cons k ks ih => rw [map_cons, ih]; rfl
  | _ + 1, _ => rfl

theorem treeRecs_eq_leaves : ∀ d el ks,
    treeRecs (d + 1) el ks = (treeLeaves (d + 1) ks).flatMap fun eb => eb.hList.nonempty
  | 0, _, ks => by simp only [treeRecs, treeLeaves, flatMap_map]
  | d + 1, _, ks => by
    rw [treeRecs, treeLeaves, flatMap_assoc]
    simp only [treeRecs_eq_leaves d]

theorem treeRecs_node : ∀ d k,
    treeRecs d k.eb.hList k.kids = (nodeLeaves d k).flatMap fun eb => eb.hList.nonempty
  | 0, k => by simp [treeRecs, nodeLeaves]
  | d + 1, k => treeRecs_eq_leaves d k.eb.hList k.kids

theorem mem_treeRecs_of_leaf (heb : eb ∈ nodeLeaves d k) (hx : x ∈ eb.hList.nonempty) :
    x ∈ treeRecs d k.eb.hList k.kids := by
  rw [treeRecs_node]
  exact mem_flatMap.mpr ⟨eb, heb, hx⟩

theorem LeafChain.of_append : ∀ {left right}, LeafChain (left ++ right) → LeafChain right
  | [], _, h => h
  | [_], [], _ => trivial
  | [_], _ :: _, h => h.2
  | _ :: eb' :: left, _, h => (show LeafChain ((eb' :: left) ++ _) from h.2).of_append

/-! ### The map of a list of records -/

theorem recsMap_eq_none {recs : List ExtentRec} {v : Nat} : recsMap fs recs v = none ↔
    ∀ r ∈ recs, ¬ Covers eCpos eLeafClusters r v := by
  simp [recsMap, findSome?_eq_none_iff, ExtentRec.phys]

theorem recsMap_of_mem : ∀ {recs lo hi v r}, Spaced eCpos eLeafClusters lo recs hi → r ∈ recs →
    Covers eCpos eLeafClusters r v →
    recsMap fs recs v = some (r.eBlkno + clustersToBlocks fs (v - r.eCpos), r.eFlags)
  | [], _, _, _, _, _, hr, _ => by cases hr
  | x :: xs, lo, hi, v, r, hs, hr, hc => by
    rcases mem_cons.mp hr with rfl | hr
    · simp [recsMap, ExtentRec.phys, hc]
    · have hb := (hs.2.2.mem_bounds r hr).1
      have hx : ¬ Covers eCpos eLeafClusters x v := by
        intro h
        have h1 := hc.1
        have h2 := h.2
        omega
      have hstep : recsMap fs (x :: xs) v = recsMap fs xs v := by
        simp [recsMap, ExtentRec.phys, hx]
      rw [hstep, recsMap_of_mem hs.2.2 hr hc]

/-! ### What well-formedness gives -/

theorem live_eq_dropEmpty (rs : List ExtentRec) :
    rs = dropEmpty rs ∨ rs = ExtentRec.zero :: dropEmpty rs := by
  cases rs with
  | nil => exact .inl rfl
  | cons r rs =>
    by_cases h : r = ExtentRec.zero
    · simp [dropEmpty, h]
    · simp [dropEmpty, h]

theorem eq_dropEmpty {rs : List ExtentRec} (h : rs.head? ≠ some ExtentRec.zero) :
    rs = dropEmpty rs :=
  (live_eq_dropEmpty rs).resolve_right fun hd => h (by rw [hd]; rfl)

theorem LeafOk.nonempty_eq (h : LeafOk fs lo hi el) : el.nonempty = dropEmpty el.live := by
  have hpos : ∀ r ∈ dropEmpty el.live, isEmptyExtent r = false := by
    intro r hr
    have := (h.spaced.mem_bounds r hr).2.1
    simp only [isEmptyExtent, beq_eq_false_iff_ne]
    omega
  unfold ExtentList.nonempty
  generalize el.live = rs at hpos ⊢
  cases rs with
  | nil => rfl
  | cons r rs =>
    by_cases hz : r = ExtentRec.zero
    · have hd : dropEmpty (r :: rs) = rs := by simp [dropEmpty, hz]
      rw [hd] at hpos ⊢
      have hr : isEmptyExtent r = true := by rw [hz]; rfl
      rw [filter_cons_of_neg (by simp [hr]), filter_eq_self]
      intro a ha
      simp [hpos a ha]
    · have hd : dropEmpty (r :: rs) = r :: rs := by simp [dropEmpty, hz]
      rw [hd] at hpos ⊢
      rw [filter_eq_self]
      intro a ha
      simp [hpos a ha]

theorem LeafOk.nonempty_spaced (h : LeafOk fs lo hi el) :
    Spaced eCpos eLeafClusters lo el.nonempty hi := by
  rw [h.nonempty_eq]
  exact h.spaced

theorem spaced_flatMap {f : Node → List ExtentRec} : ∀ {rs ks lo hi},
    Tiled eCpos eIntClusters lo rs hi →
    List.Forall₂ (fun r k => Spaced eCpos eLeafClusters r.eCpos (f k)
      (r.eCpos + r.eIntClusters)) rs ks → Spaced eCpos eLeafClusters lo (ks.flatMap f) hi
  | _, _, _, _, ht, .nil => ht
  | r :: rs, k :: ks, lo, hi, ht, .cons h hs => by
    rw [flatMap_cons, spaced_append]
    obtain ⟨h1, -, h3⟩ := ht
    subst h1
    exact ⟨_, h, spaced_flatMap h3 hs⟩

theorem WfList.recs_spaced : ∀ {d right lo hi el ks}, WfList fs d right lo hi el ks →
    Spaced eCpos eLeafClusters lo (treeRecs d el ks) hi
  | 0, _, _, _, _, _, h => h.1.nonempty_spaced
  | _ + 1, _, _, _, _, _, h =>
    spaced_flatMap h.1.tiled (EachLast.forall₂ (fun _ _ _ hk => hk.2.recs_spaced) h.2.2)

theorem WfRoot.recs_spaced {di : Dinode} {ks : List Node} (h : WfRoot fs di ks) :
    Spaced eCpos eLeafClusters 0 (treeRecs di.iList.lTreeDepth di.iList ks) uint32Max := by
  by_cases hd : di.iList.lTreeDepth = 0
  · rw [hd]
    exact (h.leaf hd).nonempty_spaced
  · exact (h.node hd).recs_spaced

theorem WfList.recs_ok : ∀ {d right lo hi el ks}, WfList fs d right lo hi el ks →
    ∀ r ∈ treeRecs d el ks, RecOk fs r
  | 0, _, _, _, _, _, h, r, hr => h.1.recs r (h.1.nonempty_eq ▸ hr)
  | d + 1, _, _, _, _, _, h, r, hr => by
    obtain ⟨k, hk, hr⟩ := mem_flatMap.mp hr
    obtain ⟨_, -, hw⟩ := forall₂_mem_right
      (EachLast.forall₂
        (fun _ _ _ hk => hk.2.recs_ok) h.2.2) k hk
    exact hw r hr

theorem WfList.leaf_ok : ∀ {d right lo hi el ks}, WfList fs d right lo hi el ks →
    ∀ eb ∈ treeLeaves d ks,
      ∃ lo' hi', lo ≤ lo' ∧ hi' ≤ hi ∧ LeafOk fs lo' hi' eb.hList ∧ dropEmpty eb.hList.live ≠ []
  | 0, _, _, _, _, _, _, eb, he => by cases he
  | 1, _, _, _, el, ks, h, eb, he => by
    obtain ⟨k, hk, rfl⟩ := mem_map.mp he
    obtain ⟨r, hr, hw⟩ := forall₂_mem_right
      (EachLast.forall₂ (R := fun r k => LeafOk fs r.eCpos (r.eCpos + r.eIntClusters) k.eb.hList ∧
        dropEmpty k.eb.hList.live ≠ []) (fun _ _ _ hk => ⟨hk.2.1, hk.2.2.1⟩) h.2.2) k hk
    have hb := h.1.tiled.spaced.mem_bounds r hr
    exact ⟨_, _, hb.1, hb.2.2, hw⟩
  | d + 2, _, _, _, el, ks, h, eb, he => by
    obtain ⟨k, hk, he⟩ := mem_flatMap.mp he
    obtain ⟨r, hr, hw⟩ := forall₂_mem_right
      (EachLast.forall₂
        (fun _ _ _ hk => hk.2.leaf_ok) h.2.2) k hk
    obtain ⟨lo', hi', h1, h2, h3⟩ := hw eb he
    have hb := h.1.tiled.spaced.mem_bounds r hr
    exact ⟨lo', hi', by omega, by omega, h3⟩

end Ocfs2Tools
