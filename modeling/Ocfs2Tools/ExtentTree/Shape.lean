import Ocfs2Tools.ExtentTree.Stored

/-!
# Trees by their shape alone

The iterator and the copy of a tree need less than `WfList`: every list has the depth of
its level and uses no more records than it has, and an interior list is not empty. Such a
tree may have free slots anywhere, and interior records without clusters, as
`ocfs2_add_branch` leaves them on the right edge until the insert fills the branch.
-/

namespace Ocfs2Tools

/-- A list of depth `d` and what hangs below it, every list of the depth of its level. -/
def Shaped : Nat → ExtentList → List Node → Prop
  | 0, el, ks => el.lTreeDepth = 0 ∧ el.lNextFreeRec ≤ el.lCount ∧ ks = []
  | d + 1, el, ks => el.lTreeDepth = d + 1 ∧ el.lNextFreeRec ≤ el.lCount ∧ el.live ≠ [] ∧
      ∀ k ∈ ks, Shaped d k.eb.hList k.kids

instance decidableShaped : (d : Nat) → (el : ExtentList) → (ks : List Node) →
    Decidable (Shaped d el ks)
  | 0, _, _ => inferInstanceAs (Decidable (_ ∧ _ ∧ _))
  | d + 1, _, _ =>
    have : ∀ k : Node, Decidable (Shaped d k.eb.hList k.kids) := fun k =>
      decidableShaped d k.eb.hList k.kids
    inferInstanceAs (Decidable (_ ∧ _ ∧ _ ∧ _))

/-- No interior record of the tree is without clusters. -/
def NoEmptyBranch : Nat → ExtentList → List Node → Prop
  | 0, _, _ => True
  | d + 1, el, ks => (∀ r ∈ el.live, r.eIntClusters ≠ 0) ∧
      ∀ k ∈ ks, NoEmptyBranch d k.eb.hList k.kids

instance decidableNoEmptyBranch : (d : Nat) → (el : ExtentList) → (ks : List Node) →
    Decidable (NoEmptyBranch d el ks)
  | 0, _, _ => .isTrue trivial
  | d + 1, _, _ =>
    have : ∀ k : Node, Decidable (NoEmptyBranch d k.eb.hList k.kids) := fun k =>
      decidableNoEmptyBranch d k.eb.hList k.kids
    inferInstanceAs (Decidable (_ ∧ _))

variable {fs : Filesys} {ebs : Nat → Option ExtentBlock}

theorem Shaped.depth : ∀ {d el ks}, Shaped d el ks → el.lTreeDepth = d
  | 0, _, _, h => h.1
  | _ + 1, _, _, h => h.1

theorem Shaped.le : ∀ {d el ks}, Shaped d el ks → el.lNextFreeRec ≤ el.lCount
  | 0, _, _, h => h.2.1
  | _ + 1, _, _, h => h.2.1

theorem WfList.shaped : ∀ {d right lo hi el ks}, WfList fs d right lo hi el ks → Shaped d el ks ∧
    NoEmptyBranch d el ks
  | 0, _, _, _, _, _, h => ⟨⟨h.1.depth, h.1.le, h.2.2.1⟩, trivial⟩
  | d + 1, _, _, _, el, ks, h => by
    have hkids := EachLast.forall₂ (fun _ _ _ hk => hk.2.shaped) h.2.2
    have hall : ∀ k ∈ ks, Shaped d k.eb.hList k.kids ∧ NoEmptyBranch d k.eb.hList k.kids := by
      intro k hk
      obtain ⟨_, -, hs⟩ := forall₂_mem_right hkids k hk
      exact hs
    refine ⟨⟨h.1.depth, h.1.le, h.1.ne, fun k hk => (hall k hk).1⟩, ?_, fun k hk => (hall k hk).2⟩
    intro r hr
    have := (h.1.tiled.spaced.mem_bounds r hr).2.1
    omega

theorem outOfRange_zero (fs : Filesys) : outOfRange fs 0 = true := rfl

theorem Shaped.treeLeaves_ne : ∀ {d el ks},
    Shaped (d + 1) el ks → readKids ebs (d + 1) el = some ks → treeLeaves (d + 1) ks ≠ []
  | d, el, ks, h, hread => by
    obtain ⟨-, -, hlive, hkids⟩ := h
    rw [treeLeaves_succ]
    intro hnil
    obtain ⟨r, hr⟩ := List.exists_mem_of_ne_nil _ hlive
    obtain ⟨k, hk, hl⟩ := forall₂_mem_left (readKids_succ.mp hread) r hr
    have hnode := List.flatMap_eq_nil_iff.mp hnil k hk
    cases d with
    | zero => cases hnode
    | succ d => exact (hkids k hk).treeLeaves_ne hl.kids hnode

theorem Shaped.nodeLeaves_ne {d : Nat} {k : Node} (h : Shaped d k.eb.hList k.kids)
    (hread : readKids ebs d k.eb.hList = some k.kids) : nodeLeaves d k ≠ [] := by
  cases d with
  | zero => exact List.cons_ne_nil _ _
  | succ d => exact h.treeLeaves_ne hread

theorem Shaped.leaf_le : ∀ {d el ks}, Shaped d el ks →
    ∀ eb ∈ treeLeaves d ks, eb.hList.lNextFreeRec ≤ eb.hList.lCount
  | 1, _, _, h, eb, he => by
    obtain ⟨k, hk, rfl⟩ := List.mem_map.mp he
    exact (h.2.2.2 k hk).le
  | _ + 2, _, _, h, eb, he => by
    obtain ⟨k, hk, he⟩ := List.mem_flatMap.mp he
    exact (h.2.2.2 k hk).leaf_le eb he

/-- The two leaves and an empty one behind them, as `ocfs2_add_branch` leaves it. -/
def addedLeaves : List ExtentBlock :=
  [⟨0, 10, 11, listOf 0 28 (sparseRecs 0 800 28)⟩,
    ⟨0, 11, 12, listOf 0 28 [ExtentRec.zero, ⟨150, 3, 0, extUnwritten, 8000⟩]⟩,
    ⟨0, 12, 0, listOf 0 28 [⟨200, 0, 0, 0, 0⟩]⟩]

def addedInode : Dinode :=
  smallInode 12 (listOf 1 19 [⟨0, 100, 0, 0, 10⟩, ⟨100, 100, 0, 0, 11⟩, ⟨200, 0, 0, 0, 12⟩])

end Ocfs2Tools
