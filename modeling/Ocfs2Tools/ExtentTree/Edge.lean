import Ocfs2Tools.ExtentTree.Path

/-!
# The right edge of an extent tree

The blocks a walk for the last record passes. A tree changes there when it grows: the
last leaf gets a successor, and a new branch hangs below a list of the edge. Both are
followed here from the device to the tree that is read from it.
-/

namespace Ocfs2Tools

open List

variable {fs : Filesys} {ebs ebs' : Nat → Option ExtentBlock}
  {d lo hi : Nat} {right : Bool} {el : ExtentList} {js : List Node} {k : Node}
  {left : List ExtentBlock} {last leaf : ExtentBlock} {link : ExtentRec}

/-! ### The right edge -/

theorem WfList.edge {ks : List Node} (h : WfList fs (d + 1) right lo hi el ks) :
    ∃ rs r js k, el.live = rs ++ [r] ∧ ks = js ++ [k] ∧ rs.length = js.length ∧
      k.eb.hList.lCount = extentRecsPerEb fs ∧
      WfList fs d right r.eCpos (r.eCpos + r.eIntClusters) k.eb.hList k.kids := by
  rcases eq_nil_or_concat' el.live with h0 | ⟨rs, r, hlive⟩
  · exact absurd h0 h.1.ne
  have hE := h.2.2
  have hl := hE.length_eq
  rw [hlive] at hE hl
  rcases eq_nil_or_concat' ks with h0 | ⟨js, k, hks⟩
  · rw [h0] at hl
    simp at hl
  · rw [hks] at hl hE
    have hlen : rs.length = js.length := by simpa using hl
    rw [eachLast_append (by simp) hlen] at hE
    exact ⟨rs, r, js, k, hlive, hks, hlen, hE.2⟩

/-- The blocks of the right edge above the leaves, from the top. -/
def edgeBlocks : Nat → List Node → List ExtentBlock
  | 0, _ => []
  | 1, _ => []
  | d + 2, ks =>
    match ks.getLast? with
    | some k => k.eb :: edgeBlocks (d + 1) k.kids
    | none => []

/-- The lists of the right edge above the leaves, from the root. -/
def edgeLists : Nat → ExtentList → List Node → List ExtentList
  | 0, _, _ => []
  | d + 1, el, ks => el :: (edgeBlocks (d + 1) ks).map ExtentBlock.hList

def ExtentList.HasRoom (el : ExtentList) : Prop := el.lNextFreeRec < el.lCount

instance (el : ExtentList) : Decidable el.HasRoom := inferInstanceAs (Decidable (_ < _))

theorem edgeBlocks_concat (d : Nat) (js : List Node) (k : Node) :
    edgeBlocks (d + 2) (js ++ [k]) = k.eb :: edgeBlocks (d + 1) k.kids := by
  simp [edgeBlocks]

/-! ### Replacing the last leaf, and hanging a branch below a node of the right edge -/

/-- No list of the tree counts more records than it has slots. -/
def Bounded : Nat → ExtentList → List Node → Prop
  | 0, el, _ => el.lNextFreeRec ≤ el.lCount
  | d + 1, el, ks => el.lNextFreeRec ≤ el.lCount ∧ ∀ k ∈ ks, Bounded d k.eb.hList k.kids

theorem Bounded.le : ∀ {d el ks}, Bounded d el ks → el.lNextFreeRec ≤ el.lCount
  | 0, _, _, h => h
  | _ + 1, _, _, h => h.1

theorem WfList.bounded : ∀ {d right lo hi el ks}, WfList fs d right lo hi el ks → Bounded d el ks
  | 0, _, _, _, _, _, h => h.1.le
  | d + 1, _, _, _, _, _, h => by
    refine ⟨h.1.le, fun k hk => ?_⟩
    obtain ⟨_, -, hw⟩ := forall₂_mem_right
      (EachLast.forall₂
        (fun _ _ _ hk => hk.2.bounded) h.2.2) k hk
    exact hw

theorem WfList.leaves_ne : ∀ {d right lo hi el ks}, WfList fs (d + 1) right lo hi el ks →
    treeLeaves (d + 1) ks ≠ []
  | 0, _, _, _, _, _, h => by
    obtain ⟨_, _, js, k, -, rfl, -⟩ := h.edge
    simp [treeLeaves]
  | d + 1, _, _, _, _, _, h => by
    obtain ⟨_, _, js, k, -, rfl, -, -, hkid⟩ := h.edge
    rw [treeLeaves]
    simp [hkid.leaves_ne]

theorem WfList.leaves_concat (h : WfList fs (d + 1) right lo hi el k.kids)
    (hl : treeLeaves (d + 2) (js ++ [k]) = left ++ [last]) :
    ∃ l, treeLeaves (d + 1) k.kids = l ++ [last] ∧
      left = js.flatMap (fun j => treeLeaves (d + 1) j.kids) ++ l := by
  rcases eq_nil_or_concat' (treeLeaves (d + 1) k.kids) with h0 | ⟨l, last', hl'⟩
  · exact absurd h0 h.leaves_ne
  rw [treeLeaves, flatMap_append, flatMap_cons, flatMap_nil, append_nil, hl', ← append_assoc] at hl
  obtain ⟨h1, h2⟩ := append_inj' hl rfl
  exact ⟨l, by rw [hl', h2], h1.symm⟩

theorem WfList.set_last {rs : List ExtentRec} {r : ExtentRec} {k' : Node}
    (h : WfList fs (d + 1) right lo hi el (js ++ [k])) (hlive : el.live = rs ++ [r])
    (hlen : rs.length = js.length) (hk : k'.eb.hList.lCount = extentRecsPerEb fs ∧
      WfList fs d right r.eCpos (r.eCpos + r.eIntClusters) k'.eb.hList k'.kids) :
    WfList fs (d + 1) right lo hi el (js ++ [k']) := by
  have hE := h.2.2
  rw [hlive, eachLast_append (by simp) hlen] at hE
  refine ⟨h.1, h.2.1, ?_⟩
  rw [hlive, eachLast_append (by simp) hlen]
  exact ⟨hE.1, hk⟩

theorem ExtentList.live_push (h : el.HasRoom) (r : ExtentRec) :
    (el.push r).live = el.live ++ [r] := by
  simp only [push, setRec, live]
  rw [take_add_one, getElem?_set_self h, take_set_of_le (le_refl _)]
  rfl

theorem ExtentList.lCount_push (el : ExtentList) (r : ExtentRec) :
    (el.push r).lCount = el.lCount := by
  simp [push, setRec, lCount]

/-- A branch to hang into a tree: a node that the record `link` leads to, with one leaf,
    which maps nothing. -/
structure Branch (ebs : Nat → Option ExtentBlock) (d : Nat) (link : ExtentRec) (top : Node)
    (leaf : ExtentBlock) : Prop where
  leads : Leads ebs d link top
  leaves : nodeLeaves d top = [leaf]
  bounded : Bounded d top.eb.hList top.kids

/-- The tree `ks'` is `ks` with a branch under the list at level `j` of the right edge. -/
structure Hung (D j : Nat) (el : ExtentList) (ks : List Node) (el' : ExtentList)
    (ks' : List Node) (left : List ExtentBlock) (last leaf : ExtentBlock) (link : ExtentRec)
    (new : List Nat) : Prop where
  leaves : treeLeaves D ks' = left ++ [last, leaf]
  blocks : treeBlocks D ks' = treeBlocks D ks ++ new
  bounded : Bounded D el' ks'
  edge : ∃ up x low low', edgeLists D el ks = up ++ x :: low ∧ up.length = j ∧
    edgeLists D el' ks' = up ++ x.push link :: low'

theorem edgeBlocks_mem : ∀ {d right lo hi el ks}, WfList fs (d + 1) right lo hi el ks →
    ∀ eb ∈ edgeBlocks (d + 1) ks, eb.hBlkno ∈ treeBlocks (d + 1) ks
  | 0, _, _, _, _, _, _, eb, he => by cases he
  | d + 1, _, _, _, _, _, h, eb, he => by
    obtain ⟨_, _, js, k, -, rfl, -, -, hkid⟩ := h.edge
    rw [edgeBlocks_concat] at he
    rw [mem_treeBlocks_succ]
    refine ⟨k, by simp, ?_⟩
    rcases mem_cons.mp he with rfl | he
    · exact .inl rfl
    · exact .inr (edgeBlocks_mem hkid eb he)

theorem edgeLists_concat (d : Nat) (el : ExtentList) (js : List Node) (k : Node) :
    edgeLists (d + 2) el (js ++ [k]) = el :: edgeLists (d + 1) k.eb.hList k.kids := by
  rw [edgeLists, edgeBlocks_concat, map_cons, edgeLists]

theorem Hung.lift {j : Nat} (k' : Node) {l : List ExtentBlock} {new : List Nat}
    (h : Hung (d + 1) j k.eb.hList k.kids k'.eb.hList k'.kids l last leaf link new)
    (hno : k'.eb.hBlkno = k.eb.hBlkno)
    (hleft : left = js.flatMap (fun j => treeLeaves (d + 1) j.kids) ++ l)
    (hle : el.lNextFreeRec ≤ el.lCount) (hb : ∀ i ∈ js, Bounded (d + 1) i.eb.hList i.kids) :
    Hung (d + 2) (j + 1) el (js ++ [k]) el (js ++ [k']) left last leaf link new := by
  obtain ⟨up, x, low, low', h1, h2, h3⟩ := h.edge
  refine ⟨?_, ?_, ⟨hle, forall_mem_append.mpr ⟨hb, forall_mem_singleton.mpr h.bounded⟩⟩, el :: up,
    x, low, low', ?_, by simp [h2], ?_⟩
  · rw [treeLeaves, flatMap_append, flatMap_singleton, h.leaves, hleft, append_assoc]
  · rw [treeBlocks_succ, treeBlocks_succ, flatMap_append, flatMap_append,
      flatMap_singleton, flatMap_singleton, nodeBlocks, nodeBlocks, h.blocks, hno]
    simp
  · rw [edgeLists_concat, h1]
    rfl
  · rw [edgeLists_concat, h3]
    rfl

theorem edgeBlocks_dev : ∀ {d right lo hi el ks}, WfList fs (d + 1) right lo hi el ks →
    readKids ebs (d + 1) el = some ks → ∀ eb ∈ edgeBlocks (d + 1) ks, ebs eb.hBlkno = some eb
  | 0, _, _, _, _, _, _, _, eb, he => by cases he
  | d + 1, _, _, _, _, _, h, hread, eb, he => by
    obtain ⟨_, _, js, k, hlive, rfl, hlen, -, hkid⟩ := h.edge
    obtain ⟨-, hk⟩ := (readKids_concat hlive hlen).mp hread
    rw [edgeBlocks_concat] at he
    rcases mem_cons.mp he with rfl | he
    · rw [hk.blkno]
      exact hk.eb
    · exact edgeBlocks_dev hkid hk.kids eb he

section SetLast

variable {last' : ExtentBlock} {top : Node} (hdev : ebs' last.hBlkno = some last')
  (hno : last'.hBlkno = last.hBlkno) (hlist : last'.hList = last.hList)

include hdev hno hlist

theorem readKids_setLast : ∀ {d right lo hi el ks left}, WfList fs (d + 1) right lo hi el ks →
      readKids ebs (d + 1) el = some ks → (treeBlocks (d + 1) ks).Nodup →
      treeLeaves (d + 1) ks = left ++ [last] →
      (∀ b ∈ treeBlocks (d + 1) ks, b ≠ last.hBlkno → ebs' b = ebs b) →
      ∃ ks', readKids ebs' (d + 1) el = some ks' ∧ treeLeaves (d + 1) ks' = left ++ [last'] ∧
        treeBlocks (d + 1) ks' = treeBlocks (d + 1) ks ∧ WfList fs (d + 1) right lo hi el ks' ∧
        ks'.length = ks.length
  | 0, right, lo, hi, el, ks, left, hw, hread, hnd, hl, hfr => by
    obtain ⟨rs, r, js, k, hlive, rfl, hlen, hcnt, hkid⟩ := hw.edge
    obtain ⟨hjs, hk⟩ := (readKids_concat hlive hlen).mp hread
    rw [treeLeaves, map_append, map_cons, map_nil] at hl
    obtain ⟨hl1, hl2⟩ := append_inj' hl rfl
    rw [singleton_inj] at hl2
    rw [treeBlocks_succ, flatMap_append, nodup_append] at hnd
    have hkids : k.kids = [] := (Option.some.inj hk.kids).symm
    refine ⟨js ++ [.mk last' []], ?_, ?_, ?_, ?_, by simp⟩
    · rw [readKids_concat hlive hlen]
      refine ⟨leads_frame_all hjs fun b hb => hfr b ?_ ?_, ?_, ?_, rfl⟩
      · rw [treeBlocks_succ, flatMap_append]
        exact mem_append_left _ hb
      · rintro rfl
        exact hnd.2.2 _ hb _ (by simp [nodeBlocks, hl2]) rfl
      · rw [← hk.blkno, hl2]
        exact hdev
      · rw [← hk.blkno, hl2]
        exact hno
    · rw [treeLeaves, map_append, hl1]
      rfl
    · simp [hno, hl2, treeBlocks]
    · rw [hkids, hl2, ← hlist] at hkid
      rw [hl2, ← hlist] at hcnt
      exact hw.set_last hlive hlen ⟨hcnt, hkid⟩
  | d + 1, right, lo, hi, el, ks, left, hw, hread, hnd, hl, hfr => by
    obtain ⟨rs, r, js, k, hlive, rfl, hlen, hcnt, hkid⟩ := hw.edge
    obtain ⟨hjs, hk⟩ := (readKids_concat hlive hlen).mp hread
    obtain ⟨l, hkl, hleft⟩ := hkid.leaves_concat hl
    rw [treeBlocks_succ, flatMap_append, flatMap_singleton] at hnd hfr
    obtain ⟨-, hndk, hdisj⟩ := nodup_append.mp hnd
    obtain ⟨hkn, hndk⟩ := nodup_cons.mp hndk
    have hlastmem : last.hBlkno ∈ treeBlocks (d + 1) k.kids :=
      (readKids_leaf hk.kids last (by rw [hkl]; simp)).2
    obtain ⟨kids', h1, h2, h3, h4, -⟩ := readKids_setLast hkid hk.kids hndk hkl
      (fun b hb hne => hfr b (mem_append_right _ (mem_cons_of_mem _ hb)) hne)
    refine ⟨js ++ [.mk k.eb kids'], ?_, ?_, ?_, ?_, by simp⟩
    · rw [readKids_concat hlive hlen]
      refine ⟨leads_frame_all hjs fun b hb => hfr b (mem_append_left _ hb) ?_, ?_, hk.blkno, h1⟩
      · rintro rfl
        exact hdisj _ hb _ (mem_cons_of_mem _ hlastmem) rfl
      · have hne : k.eb.hBlkno ≠ last.hBlkno := fun h => hkn (h ▸ hlastmem)
        rw [← hk.blkno, hfr _ (mem_append_right _ (mem_cons_self ..)) hne, hk.blkno]
        exact hk.eb
    · rw [treeLeaves, hleft]
      simp [h2]
    · rw [treeBlocks_succ, treeBlocks_succ]
      simp [nodeBlocks, h3]
    · exact hw.set_last hlive hlen ⟨hcnt, h4⟩

theorem hang_here {ks : List Node}
    (hw : WfList fs (d + 1) true lo hi el ks) (hread : readKids ebs (d + 1) el = some ks)
    (hnd : (treeBlocks (d + 1) ks).Nodup) (hl : treeLeaves (d + 1) ks = left ++ [last])
    (hfr : ∀ b ∈ treeBlocks (d + 1) ks, b ≠ last.hBlkno → ebs' b = ebs b)
    (hbr : Branch ebs' d link top leaf) (hroom : el.HasRoom) :
    ∃ ks', readKids ebs' (d + 1) (el.push link) = some ks' ∧
      Hung (d + 1) 0 el ks (el.push link) ks' left last' leaf link (nodeBlocks d top) := by
  obtain ⟨ks1, h1, h2, h3, h4, h5⟩ := readKids_setLast hdev hno hlist hw hread hnd hl hfr
  have hlive := ExtentList.live_push hroom link
  have hlen : el.live.length = ks1.length := by rw [h5]; exact hw.2.2.length_eq
  refine ⟨ks1 ++ [top], ?_, ?_, ?_, ?_, ?_⟩
  · rw [readKids_concat hlive hlen]
    exact ⟨readKids_succ.mp h1, hbr.leads⟩
  · rw [treeLeaves_succ, flatMap_append, ← treeLeaves_succ, h2, flatMap_singleton, hbr.leaves]
    simp
  · rw [treeBlocks_succ, flatMap_append, ← treeBlocks_succ, h3, flatMap_singleton]
  · refine ⟨?_, forall_mem_append.mpr ⟨h4.bounded.2, forall_mem_singleton.mpr hbr.bounded⟩⟩
    rw [ExtentList.lCount_push]
    exact hroom
  · exact ⟨[], el, (edgeBlocks (d + 1) ks).map ExtentBlock.hList,
      (edgeBlocks (d + 1) (ks1 ++ [top])).map ExtentBlock.hList, rfl, rfl, rfl⟩

/-- Hang a branch below a block of the right edge, `j` levels down; that block has been
    rewritten with the link in its list. -/
theorem hang_below {teb : ExtentBlock}
    (htgt : ebs' teb.hBlkno = some { teb with hList := teb.hList.push link })
    (hbr : Branch ebs' d link top leaf) (hroom : teb.hList.HasRoom) :
    ∀ {j lo hi el ks left},
      WfList fs (d + 1 + j + 1) true lo hi el ks → readKids ebs (d + 1 + j + 1) el = some ks →
      (treeBlocks (d + 1 + j + 1) ks).Nodup → treeLeaves (d + 1 + j + 1) ks = left ++ [last] →
      (edgeBlocks (d + 1 + j + 1) ks)[j]? = some teb →
      (∀ b ∈ treeBlocks (d + 1 + j + 1) ks, b ≠ last.hBlkno → b ≠ teb.hBlkno → ebs' b = ebs b) →
      ∃ ks', readKids ebs' (d + 1 + j + 1) el = some ks' ∧
        Hung (d + 1 + j + 1) (j + 1) el ks el ks' left last' leaf link (nodeBlocks d top)
  | 0, lo, hi, el, ks, left, hw, hread, hnd, hl, hteb, hfr => by
    obtain ⟨rs, r, js, k, hlive, rfl, hlen, -, hkid⟩ := hw.edge
    obtain ⟨hjs, hk⟩ := (readKids_concat hlive hlen).mp hread
    obtain ⟨l, hkl, hleft⟩ := hkid.leaves_concat hl
    have hkeb : k.eb = teb := by
      rw [edgeBlocks_concat] at hteb
      exact Option.some.inj hteb
    rw [treeBlocks_succ, flatMap_append, flatMap_singleton] at hnd hfr
    obtain ⟨-, hndk, hdisj⟩ := nodup_append.mp hnd
    obtain ⟨hkn, hndk⟩ := nodup_cons.mp hndk
    have hlast : last.hBlkno ∈ treeBlocks (d + 1) k.kids :=
      (readKids_leaf hk.kids last (by rw [hkl]; simp)).2
    obtain ⟨kids', h1, h2⟩ := hang_here hdev hno hlist hkid hk.kids hndk hkl
      (fun b hb hne => hfr b (mem_append_right _ (mem_cons_of_mem _ hb)) hne
        (fun h => hkn (hkeb ▸ h ▸ hb))) hbr (hkeb ▸ hroom)
    refine ⟨js ++ [.mk { teb with hList := teb.hList.push link } kids'], ?_, ?_⟩
    · rw [readKids_concat hlive hlen]
      refine ⟨leads_frame_all hjs fun b hb => hfr b (mem_append_left _ hb) ?_ ?_, ?_, ?_, ?_⟩
      · rintro rfl
        exact hdisj _ hb _ (mem_cons_of_mem _ hlast) rfl
      · rintro rfl
        exact hdisj _ hb _ (by rw [nodeBlocks, hkeb]; exact mem_cons_self ..) rfl
      · rw [← hk.blkno, hkeb]
        exact htgt
      · rw [← hk.blkno, hkeb]
        rfl
      · rw [← hkeb]
        exact h1
    · exact Hung.lift (.mk { teb with hList := teb.hList.push link } kids') (hkeb ▸ h2)
        (by rw [hkeb]; rfl) hleft hw.le_count
        (fun i hi => hw.bounded.2 i (mem_append_left _ hi))
  | j + 1, lo, hi, el, ks, left, hw, hread, hnd, hl, hteb, hfr => by
    obtain ⟨rs, r, js, k, hlive, rfl, hlen, -, hkid⟩ := hw.edge
    obtain ⟨hjs, hk⟩ := (readKids_concat hlive hlen).mp hread
    obtain ⟨l, hkl, hleft⟩ := WfList.leaves_concat (d := d + 1 + j) hkid hl
    have hteb' : (edgeBlocks (d + 1 + j + 1) k.kids)[j]? = some teb := by
      have he : d + 1 + (j + 1) + 1 = (d + 1 + j) + 2 := by omega
      rw [he, edgeBlocks_concat] at hteb
      exact hteb
    rw [treeBlocks_succ, flatMap_append, flatMap_singleton] at hnd hfr
    obtain ⟨-, hndk, hdisj⟩ := nodup_append.mp hnd
    obtain ⟨hkn, hndk⟩ := nodup_cons.mp hndk
    have hlast : last.hBlkno ∈ treeBlocks (d + 1 + j + 1) k.kids :=
      (readKids_leaf (d := d + 1 + j + 1) hk.kids last (by rw [hkl]; simp)).2
    have htebm : teb.hBlkno ∈ treeBlocks (d + 1 + j + 1) k.kids :=
      edgeBlocks_mem hkid teb (mem_of_getElem? hteb')
    obtain ⟨kids', h1, h2⟩ := hang_below htgt hbr hroom hkid hk.kids hndk hkl
      hteb' (fun b hb => hfr b (mem_append_right _ (mem_cons_of_mem _ hb)))
    refine ⟨js ++ [.mk k.eb kids'], ?_, ?_⟩
    · rw [readKids_concat hlive hlen]
      refine ⟨leads_frame_all hjs fun b hb => hfr b (mem_append_left _ hb) ?_ ?_, ?_, hk.blkno, h1⟩
      · rintro rfl
        exact hdisj _ hb _ (mem_cons_of_mem _ hlast) rfl
      · rintro rfl
        exact hdisj _ hb _ (mem_cons_of_mem _ htebm) rfl
      · rw [← hk.blkno, hfr _ (mem_append_right _ (mem_cons_self ..))
          (fun h => hkn (h ▸ hlast)) (fun h => hkn (h ▸ htebm)), hk.blkno]
        exact hk.eb
    · exact Hung.lift (.mk k.eb kids') h2 rfl hleft hw.le_count
        (fun i hi => hw.bounded.2 i (mem_append_left _ hi))

end SetLast

/-! ### The blocks of the right edge -/

theorem edgeBlocks_length : ∀ {d right lo hi el ks}, WfList fs (d + 1) right lo hi el ks →
    (edgeBlocks (d + 1) ks).length = d
  | 0, _, _, _, _, _, _ => rfl
  | d + 1, _, _, _, _, _, h => by
    obtain ⟨_, _, js, k, -, rfl, -, -, hkid⟩ := h.edge
    rw [edgeBlocks_concat, length_cons, edgeBlocks_length hkid]

theorem edge_sublist : ∀ {d right lo hi el ks left last},
    WfList fs (d + 1) right lo hi el ks → treeLeaves (d + 1) ks = left ++ [last] →
    ((edgeBlocks (d + 1) ks).map ExtentBlock.hBlkno ++ [last.hBlkno]).Sublist
      (treeBlocks (d + 1) ks)
  | 0, _, _, _, _, _, left, last, h, hl => by
    obtain ⟨_, _, js, k, -, rfl, -⟩ := h.edge
    rw [treeLeaves, map_append, map_cons, map_nil] at hl
    obtain ⟨-, hl2⟩ := append_inj' hl rfl
    rw [singleton_inj] at hl2
    rw [treeBlocks_succ, flatMap_append, flatMap_singleton, nodeBlocks, hl2]
    exact (List.Sublist.cons_cons _ (nil_sublist _)).trans (sublist_append_right _ _)
  | d + 1, _, _, _, _, _, left, last, h, hl => by
    obtain ⟨_, _, js, k, -, rfl, -, -, hkid⟩ := h.edge
    obtain ⟨l, hkl, -⟩ := hkid.leaves_concat hl
    rw [edgeBlocks_concat, treeBlocks_succ, flatMap_append, flatMap_singleton]
    exact (List.Sublist.cons_cons _ (edge_sublist hkid hkl)).trans (sublist_append_right _ _)

/-- A list that counts too many records below the right edge spoils the tree: reading it
    from `ebs'`, the same blocks lead to `y'`. -/
theorem bounded_edge {y y' : ExtentBlock} (hy' : ebs' y.hBlkno = some y') :
    ∀ {d right lo hi el ks ks' e}, WfList fs (d + 1) right lo hi el ks →
      readKids ebs (d + 1) el = some ks → readKids ebs' (d + 1) el = some ks' →
      Bounded (d + 1) el ks' → edgeBlocks (d + 1) ks = e ++ [y] →
      (∀ x ∈ e, ebs' x.hBlkno = some x) → y'.hList.lNextFreeRec ≤ y'.hList.lCount
  | 0, _, _, _, _, _, _, e, _, _, _, _, he, _ => by simp [edgeBlocks] at he
  | d + 1, right, lo, hi, el, ks, ks', e, hw, hread, hread', hb, he, hsame => by
    obtain ⟨rs, r, js, k, hlive, rfl, hlen, -, hkid⟩ := hw.edge
    obtain ⟨-, hk⟩ := (readKids_concat hlive hlen).mp hread
    obtain ⟨k', hk'm, hk'⟩ : ∃ k' ∈ ks', Leads ebs' (d + 1) r k' := by
      rw [readKids_succ, hlive] at hread'
      exact forall₂_mem_left hread' r (by simp)
    rw [edgeBlocks_concat] at he
    have hk'b := hb.2 k' hk'm
    cases e with
    | nil =>
      obtain ⟨h1, -⟩ := cons_eq_cons.mp he
      have heq : y' = k'.eb := by
        have := hk'.eb
        rw [← hk.blkno, h1, hy'] at this
        exact Option.some.inj this
      rw [heq]
      exact hk'b.le
    | cons x e =>
      obtain ⟨h1, h2⟩ := cons_eq_cons.mp he
      have heq : k.eb = k'.eb := by
        have h3 := hk'.eb
        rw [← hk.blkno, h1, hsame x (by simp)] at h3
        rw [h1]
        exact Option.some.inj h3
      have hkids' := hk'.kids
      rw [← heq] at hkids' hk'b
      exact bounded_edge hy' hkid hk.kids hkids' hk'b h2
        (fun z hz => hsame z (mem_cons_of_mem _ hz))

theorem edgeBlocks_depth : ∀ {d right lo hi el ks}, WfList fs (d + 1) right lo hi el ks → ∀ {i eb},
    (edgeBlocks (d + 1) ks)[i]? = some eb → eb.hList.lTreeDepth = d - i
  | 0, _, _, _, _, _, _, i, eb, he => by simp [edgeBlocks] at he
  | d + 1, _, _, _, _, _, h, i, eb, he => by
    obtain ⟨_, _, js, k, -, rfl, -, -, hkid⟩ := h.edge
    rw [edgeBlocks_concat] at he
    cases i with
    | zero =>
      cases he
      exact hkid.depth
    | succ i =>
      rw [edgeBlocks_depth hkid he]
      omega

end Ocfs2Tools
