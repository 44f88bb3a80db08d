import Ocfs2Tools.ExtentTree.Path

/-!
# Trees with an empty branch on the right

`ocfs2_add_branch` appends a branch of blocks that map nothing: every list of it holds one
record without clusters, at the cluster the branch is to start from. The insert that asked for
the branch fills it, but may also leave it as it is and put its record further to the left.
`WfAdded` is the shape of such a tree: `WfList` up to the new branch.
-/

namespace Ocfs2Tools

open List ExtentRec

/-- A leaf block as `ocfs2_add_branch` makes it, for the cluster `e`. -/
structure EmptyLeaf (e : Nat) (eb : ExtentBlock) : Prop where
  depth : eb.hList.lTreeDepth = 0
  le : eb.hList.lNextFreeRec ≤ eb.hList.lCount
  live : ∃ r, eb.hList.live = [r] ∧ r.eCpos = e ∧ r.eLeafClusters = 0

/-- A branch of depth `d` as `ocfs2_add_branch` makes it. -/
def EmptyBranch (e : Nat) : Nat → Node → Prop
  | 0, k => EmptyLeaf e k.eb ∧ k.kids = []
  | d + 1, k => (k.eb.hList.lTreeDepth = d + 1 ∧ k.eb.hList.lNextFreeRec ≤ k.eb.hList.lCount) ∧
      ∃ r k', k.eb.hList.live = [r] ∧ k.kids = [k'] ∧ EmptyBranch e d k'

/-- A list over `[lo, hi)` on the rightmost path of a tree with an empty branch, which hangs
    below this list or further down. -/
def WfAdded (fs : Filesys) (e : Nat) : Nat → Nat → Nat → ExtentList → List Node → Prop
  | 0, _, _, _, _ => False
  | d + 1, lo, hi, el, ks => (el.lTreeDepth = d + 1 ∧ el.lNextFreeRec ≤ el.lCount) ∧
      ∃ rs r ks' k, el.live = rs ++ [r] ∧ ks = ks' ++ [k] ∧
        (Tiled eCpos eIntClusters lo rs hi ∧ EmptyBranch e d k ∧
            EachLast (fun right r k => WfList fs d right r.eCpos (r.eCpos + r.eIntClusters)
              k.eb.hList k.kids) true rs ks' ∨
          Tiled eCpos eIntClusters lo (rs ++ [r]) hi ∧
            WfAdded fs e d r.eCpos (r.eCpos + r.eIntClusters) k.eb.hList k.kids ∧
            EachLast (fun right r k => WfList fs d right r.eCpos (r.eCpos + r.eIntClusters)
              k.eb.hList k.kids) false rs ks')

/-- The device holds below `di` a tree whose rightmost branch is empty and starts at `e`. -/
def AddedTree (fs : Filesys) (ebs : Nat → Option ExtentBlock) (di : Dinode) (e : Nat) : Prop :=
  ∃ ks, readKids ebs di.iList.lTreeDepth di.iList = some ks ∧
    di.iList.lTreeDepth < maxPathDepth ∧ e ≤ uint32Max ∧
    WfAdded fs e di.iList.lTreeDepth 0 uint32Max di.iList ks ∧
    (∀ b ∈ treeBlocks di.iList.lTreeDepth ks, outOfRange fs b = false) ∧
    LeafChain (treeLeaves di.iList.lTreeDepth ks)

variable {fs : Filesys} {e cpos : Nat}

/-! ### The empty branch -/

theorem EmptyLeaf.nonempty_eq {eb : ExtentBlock} (h : EmptyLeaf e eb) : eb.hList.nonempty = [] := by
  obtain ⟨r, hlive, -, hr⟩ := h.live
  simp [ExtentList.nonempty, hlive, isEmptyExtent, hr]

theorem EmptyBranch.leaves : ∀ {d k}, EmptyBranch e d k → ∃ eb, nodeLeaves d k = [eb] ∧
    EmptyLeaf e eb ∧ treeRecs d k.eb.hList k.kids = []
  | 0, k, h => ⟨k.eb, rfl, h.1, h.1.nonempty_eq⟩
  | d + 1, k, ⟨_, r, k', _, hks, hk⟩ => by
    obtain ⟨eb, hleaf, hempty, hrecs⟩ := EmptyBranch.leaves hk
    refine ⟨eb, ?_, hempty, ?_⟩
    · rw [nodeLeaves, hks, treeLeaves_succ, flatMap_singleton, hleaf]
    · rw [treeRecs, hks, flatMap_singleton, hrecs]

theorem EmptyBranch.guides : ∀ {d k}, EmptyBranch e d k → Guides cpos d k.eb.hList k.kids
  | 0, _, h => ⟨h.1.depth, h.1.le⟩
  | d + 1, k, ⟨hd, r, k', hlive, hks, hk⟩ => by
    -- one record, which is therefore the last one and followed
    have hidx : followIndex k.eb.hList cpos = 0 := @followIndex_eq _ r d _ [] hd.1 hd.2 hlive nofun
    exact ⟨hd, [], r, [], [], k', [], hlive, hks, rfl, hidx.symm, nofun, nofun,
      EmptyBranch.guides hk⟩

/-! ### The tree around it -/

/-- The kids that the records `rs` give their ranges to. -/
def WfKids (fs : Filesys) (d : Nat) (rs : List ExtentRec) (ks : List Node) : Prop :=
  List.Forall₂ (fun r k => ∃ right, WfList fs d right r.eCpos (r.eCpos + r.eIntClusters)
    k.eb.hList k.kids) rs ks

theorem EachLast.wfKids {d : Nat} {flag : Bool} {rs : List ExtentRec} {ks : List Node}
    (h : EachLast (fun right r k => WfList fs d right r.eCpos (r.eCpos + r.eIntClusters)
      k.eb.hList k.kids) flag rs ks) : WfKids fs d rs ks :=
  EachLast.forall₂ (fun right _ _ hk => ⟨right, hk⟩) h

theorem WfKids.spaced {d : Nat} {rs : List ExtentRec} {ks : List Node} (h : WfKids fs d rs ks) :
    List.Forall₂ (fun r k => Spaced eCpos eLeafClusters r.eCpos (treeRecs d k.eb.hList k.kids)
      (r.eCpos + r.eIntClusters)) rs ks :=
  h.imp fun _ _ hk => hk.choose_spec.recs_spaced

theorem WfKids.leaf_ok {d lo hi : Nat} {rs : List ExtentRec} {ks : List Node}
    (h : WfKids fs d rs ks) (ht : Spaced eCpos eIntClusters lo rs hi) :
    ∀ eb ∈ ks.flatMap (nodeLeaves d), ∃ lo' hi', hi' ≤ hi ∧ LeafOk fs lo' hi' eb.hList ∧
      dropEmpty eb.hList.live ≠ [] := by
  intro eb heb
  obtain ⟨k, hk, heb⟩ := mem_flatMap.mp heb
  obtain ⟨r, hr, _, hw⟩ := forall₂_mem_right h k hk
  have hend := (ht.mem_bounds r hr).2.2
  cases d with
  | zero =>
    obtain rfl : eb = k.eb := by simpa [nodeLeaves] using heb
    exact ⟨_, _, hend, hw.1, hw.2.1⟩
  | succ d =>
    obtain ⟨lo', hi', -, hhi, hok⟩ := hw.leaf_ok eb heb
    exact ⟨lo', hi', le_trans hhi hend, hok⟩

theorem WfAdded.recs_spaced : ∀ {d lo hi el ks}, WfAdded fs e d lo hi el ks →
    Spaced eCpos eLeafClusters lo (treeRecs d el ks) hi
  | 0, _, _, _, _, h => h.elim
  | d + 1, lo, hi, el, ks, ⟨_, rs, r, ks', k, _, hks, h⟩ => by
    rw [hks]
    rcases h with ⟨ht, hk, hkids⟩ | ⟨ht, hk, hkids⟩
    · obtain ⟨-, -, -, hnone⟩ := hk.leaves
      rw [treeRecs, flatMap_append, flatMap_singleton, hnone, append_nil]
      exact spaced_flatMap ht hkids.wfKids.spaced
    · exact spaced_flatMap ht (rel_append hkids.wfKids.spaced (.cons hk.recs_spaced .nil))

theorem WfAdded.leaves : ∀ {d lo hi el ks}, WfAdded fs e d lo hi el ks →
    ∃ left eb, treeLeaves d ks = left ++ [eb] ∧ EmptyLeaf e eb ∧
      ∀ b ∈ left, ∃ lo' hi', hi' ≤ hi ∧ LeafOk fs lo' hi' b.hList ∧ dropEmpty b.hList.live ≠ []
  | 0, _, _, _, _, h => h.elim
  | d + 1, lo, hi, el, ks, ⟨_, rs, r, ks', k, _, hks, h⟩ => by
    rw [hks, treeLeaves_succ, flatMap_append, flatMap_singleton]
    rcases h with ⟨ht, hk, hkids⟩ | ⟨ht, hk, hkids⟩
    · obtain ⟨eb, hleaf, hempty, -⟩ := hk.leaves
      exact ⟨_, eb, by rw [hleaf], hempty, hkids.wfKids.leaf_ok ht.spaced⟩
    · obtain ⟨d, rfl⟩ : ∃ n, d = n + 1 := by
        cases d with
        | zero => exact hk.elim
        | succ d => exact ⟨d, rfl⟩
      obtain ⟨left, eb, hleaf, hempty, hleft⟩ := hk.leaves
      have hend := (ht.spaced.mem_bounds r (by simp)).2.2
      refine ⟨ks'.flatMap (nodeLeaves (d + 1)) ++ left, eb, by simp [nodeLeaves, hleaf], hempty,
        forall_mem_append.mpr ⟨?_, fun b hb => ?_⟩⟩
      · obtain ⟨h1, h2⟩ := tiled_append.mp ht
        exact hkids.wfKids.leaf_ok (h1.spaced.weaken (le_refl _) h2.spaced.le)
      · obtain ⟨lo', hi', hhi, hok⟩ := hleft b hb
        exact ⟨lo', hi', le_trans hhi hend, hok⟩

theorem WfAdded.guides : ∀ {d lo hi el ks}, WfAdded fs e d lo hi el ks → hi ≤ uint32Max →
    lo ≤ cpos → Guides cpos d el ks
  | 0, _, _, _, _, h, _, _ => h.elim
  | d + 1, lo, hi, el, ks, ⟨hd, rs, r, ks', k, hlive, hks, h⟩, hhi, hlo => by
    rw [hks]
    have hkids : ∀ {rs' ks''}, WfKids fs d rs' ks'' →
        (∀ x ∈ rs', x.eCpos + x.eIntClusters ≤ uint32Max) → List.Forall₂ (fun x k =>
          Spaced eCpos eLeafClusters x.eCpos (treeRecs d k.eb.hList k.kids)
            (x.eCpos + x.eIntClusters) ∧ (x.eCpos ≤ cpos → Guides cpos d k.eb.hList k.kids))
          rs' ks'' := fun hw hmax => forall₂_imp_mem hw fun x hx k _ ⟨_, hk⟩ =>
      ⟨hk.recs_spaced, hk.guides (hmax x hx)⟩
    rcases h with ⟨ht, hk, hrs⟩ | ⟨ht, hk, hrs⟩
    · have hmax : ∀ x ∈ rs, x.eCpos + x.eIntClusters ≤ uint32Max := fun x hx =>
        le_trans (ht.spaced.mem_bounds x hx).2.2 hhi
      obtain ⟨-, -, -, hnone⟩ := hk.leaves
      -- a record that goes on where the others end stands for the one of the branch
      have ht' := (tiled_append.mp ((append_nil rs).symm ▸ ht)).1
      refine @guides_of_tiled _ _ _ _ _ _ _ ⟨lo + (rs.map eIntClusters).sum, 1, 0, 0, 0⟩ _ hd.1 hd.2
        hlive hmax (tiled_append.mpr ⟨ht', rfl, Nat.zero_lt_one, le_refl _⟩) hlo (rel_append
          (hkids hrs.wfKids hmax) (.cons ⟨?_, fun _ => hk.guides⟩ .nil))
      rw [hnone]
      exact Nat.le_add_right _ _
    · have hmax : ∀ x ∈ rs ++ [r], x.eCpos + x.eIntClusters ≤ uint32Max := fun x hx =>
        le_trans (ht.spaced.mem_bounds x hx).2.2 hhi
      obtain ⟨hmax, hr⟩ := forall_mem_append.mp hmax
      exact guides_of_tiled hd.1 hd.2 hlive hmax ht hlo (rel_append (hkids hrs.wfKids hmax)
        (.cons ⟨hk.recs_spaced, hk.guides (hr r mem_cons_self)⟩ .nil))

end Ocfs2Tools
