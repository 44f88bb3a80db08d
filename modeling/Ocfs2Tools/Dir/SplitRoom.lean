import Ocfs2Tools.Dir.PlainEnv

/-!
# Whether a split makes room

After a split the new hash belongs into one of the two halves, and this half has room
exactly if not every entry of the full leaf went there. What can go wrong is that the split
hash is the smallest hash of the leaf, so that every entry moves along with the new one
(`Stuck`).
-/

namespace Ocfs2Tools.DxDir

open List

variable {fs : Filesys} {env : Env} {ix ix' : Index} {h : Hinfo} {c c' : Nat × Nat}
  {split start cpos blk : Nat} {recs : List ExtentRec} {es : List DxEntry} {leaf : DxLeaf}
  {i : Nat} {s : St}

/-! ### Where a hash belongs after a split -/

section
variable (hs' : Shape fs recs)
  (hperm : (clusters fs recs).Perm ((split, start) :: clusters fs ix.recs))
  (hsel : Selects fs ix.recs h.majorHash c)

include hperm in
theorem mem_clusters_split {x : Nat × Nat} :
    x ∈ clusters fs recs ↔ x = (split, start) ∨ x ∈ clusters fs ix.recs := by
  rw [hperm.mem_iff, mem_cons]

include hs' hperm hsel

theorem selects_new (habove : c.1 < split) (hle : split ≤ h.majorHash)
    (hsel' : Selects fs recs h.majorHash c') : c' = (split, start) := by
  apply hsel'.unique hs'
  refine ⟨(mem_clusters_split hperm).mpr (.inl rfl), hle, ?_⟩
  intro x hx hxle
  rcases (mem_clusters_split hperm).mp hx with rfl | hx
  · exact le_refl _
  · have := hsel.2.2 x hx hxle
    omega

theorem selects_old (hlt : h.majorHash < split) (hsel' : Selects fs recs h.majorHash c') :
    c' = c := by
  apply hsel'.unique hs'
  refine ⟨(mem_clusters_split hperm).mpr (.inr hsel.1), hsel.2.1, ?_⟩
  intro x hx hxle
  rcases (mem_clusters_split hperm).mp hx with rfl | hx
  · omega
  · exact hsel.2.2 x hx hxle

end

/-! ### The leaves after a split -/

theorem WfIndex.full_length (hix : WfIndex fs ix) (hc : c ∈ clusters fs ix.recs)
    (hi : i < fs.bpc) (hleaf : ix.leaves (c.2 + i) = some leaf) (hfull : leaf.dlList.full = true) :
    leaf.dlList.deEntries.length = dxEntriesPerLeaf fs ∧
      leaf.dlList.deCount = dxEntriesPerLeaf fs := by
  obtain ⟨leaf', hleaf', _, hcount, hused⟩ := hix.leaf c hc i hi
  rw [hleaf] at hleaf'
  cases hleaf'
  have hge : leaf.dlList.deCount ≤ leaf.dlList.deNumUsed := by
    simpa [EntryList.full] using hfull
  unfold EntryList.deNumUsed at hge hused
  exact ⟨by omega, hcount⟩

theorem full_eq_false {l : EntryList} : l.full = false ↔ l.deEntries.length < l.deCount := by
  rw [EntryList.full, decide_eq_false_iff_not, not_le, EntryList.deNumUsed]

theorem full_filter {p : DxEntry → Bool} {n : Nat} (hlen : es.length = n) :
    (EntryList.mk n (es.filter p)).full = false ↔ ∃ e ∈ es, p e = false := by
  rw [full_eq_false, ← hlen, length_filter_lt_length_iff_exists]
  simp

theorem splitIndex_new (hd : fs.bpc ∣ c.2) (hd' : fs.bpc ∣ start) (hne : c.2 ≠ start)
    (hi : i < fs.bpc) (hleaf : ix.leaves (c.2 + i) = some leaf) :
    (splitIndex fs ix c.2 split start s).leaves (start + i) =
      some (takeFrom fs split (start + i) leaf.dlList.deEntries) := by
  have hout : ¬(c.2 ≤ start + i ∧ start + i < c.2 + fs.bpc) := by
    intro hin
    obtain ⟨k, hk⟩ := Nat.exists_eq_add_of_le hin.1
    exact hne (aligned_apart hd hd' (by omega) hi hk.symm).1
  unfold splitIndex
  dsimp only
  rw [if_neg hout, if_pos (by omega), Nat.add_sub_cancel_left, Index.entriesAt, hleaf]

theorem splitIndex_old (hi : i < fs.bpc) (hleaf : ix.leaves (c.2 + i) = some leaf) :
    (splitIndex fs ix c.2 split start s).leaves (c.2 + i) = some (keepBelow split leaf) := by
  unfold splitIndex
  dsimp only
  rw [if_pos (by omega), hleaf]
  rfl

theorem splitIndex_other (hd : fs.bpc ∣ c.2) (hd' : fs.bpc ∣ start) (hd'' : fs.bpc ∣ c'.2)
    (hne : c'.2 ≠ c.2) (hne' : c'.2 ≠ start) {i : Nat} (hi : i < fs.bpc) :
    (splitIndex fs ix c.2 split start s).leaves (c'.2 + i) = ix.leaves (c'.2 + i) := by
  have hout : ∀ b, fs.bpc ∣ b → c'.2 ≠ b → ¬(b ≤ c'.2 + i ∧ c'.2 + i < b + fs.bpc) := by
    intro b hb hneb hin
    obtain ⟨k, hk⟩ := Nat.exists_eq_add_of_le hin.1
    exact hneb (aligned_apart hd'' hb hi (by omega) hk).1
  unfold splitIndex
  dsimp only
  rw [if_neg (hout _ hd hne), if_neg (hout _ hd' hne')]

/-! ### Room -/

/-- The leaf that a hash selects has room for one more entry. -/
def Room (fs : Filesys) (ix : Index) (h : Hinfo) : Prop :=
  ∃ cpos blk leaf, dxDirLookup fs h ix = some (.ok (cpos, blk), ix) ∧
    ix.leaves blk = some leaf ∧ leaf.dlList.full = false

/-- If the leaf can be split, and a new cluster is found and inserted, the split does not move
    every entry along with the new one. -/
def SplitHelps (env : Env) (fs : Filesys) (ix : Index) (h : Hinfo) (leafCpos : Nat)
    (es : List DxEntry) : Prop :=
  ∀ split start s, dxDirFindLeafSplit (sortEntries es) leafCpos h.majorHash = some (.ok split) →
    env.newCluster ix = some start →
    treeInsertExtent fs split start 1 0 ix.st = some (.ok (), s) → ¬Stuck es leafCpos h.majorHash

theorem room_iff {cpos blk : Nat} (hlook : dxDirLookup fs h ix = some (.ok (cpos, blk), ix))
    (hleaf : ix.leaves blk = some leaf) : Room fs ix h ↔ leaf.dlList.full = false := by
  constructor
  · rintro ⟨cpos', blk', leaf', hlook', hleaf', hfull⟩
    rw [hlook] at hlook'
    cases hlook'
    rw [hleaf] at hleaf'
    cases hleaf'
    exact hfull
  · intro hfull
    exact ⟨cpos, blk, leaf, hlook, hleaf, hfull⟩

/-- What a split that went through has done. -/
structure Done (fs : Filesys) (ix : Index) (h : Hinfo) (c : Nat × Nat) (leaf : DxLeaf)
    (split start : Nat) (s : St) : Prop where
  lt : h.majorHash < uint32Max
  sel : Selects fs ix.recs h.majorHash c
  leafAt : ix.leaves (c.2 + dxDirHashIdx fs h.minorHash) = some leaf
  full : leaf.dlList.full = true
  spec : SplitAt leaf.dlList.deEntries c.1 h.majorHash split
  aligned : fs.bpc ∣ start
  fresh : ∀ c ∈ clusters fs ix.recs, c.2 ≠ start
  list : LeafOk fs 0 uint32Max s.root.iList
  perm : (clusters fs s.root.iList.nonempty).Perm ((split, start) :: clusters fs ix.recs)

section Splitting

variable (hix : WfIndex fs ix) (hd : Done fs ix h c leaf split start s)
include hix hd

theorem Done.first : ∃ r ∈ s.root.iList.nonempty, r.eCpos = 0 := by
  -- the cluster for hash 0 is still there
  obtain ⟨r, hr, h0⟩ := hix.first
  have hpos := (hix.shape.mem_bounds hr).1
  have hmem := (mem_clusters_split hd.perm).mpr (.inr (mem_clusters.mpr ⟨r, hr, 0, hpos, rfl⟩))
  obtain ⟨x, hx, i, -, heq⟩ := mem_clusters.mp hmem
  have := congrArg Prod.fst heq
  exact ⟨x, hx, by omega⟩

theorem Done.shape : Shape fs s.root.iList.nonempty := shape_of_leaf hd.list (hd.first hix)

omit hix in
theorem Done.recs_eq : (splitIndex fs ix c.2 split start s).recs = s.root.iList.nonempty :=
  DxDir.recs_eq hd.list.depth

theorem Done.lookup (h' : Hinfo) (hlt : h'.majorHash < 4294967296) :
    ∃ c', Selects fs s.root.iList.nonempty h'.majorHash c' ∧
      dxDirLookup fs h' (splitIndex fs ix c.2 split start s) =
        some (.ok (c'.1, c'.2 + dxDirHashIdx fs h'.minorHash),
          splitIndex fs ix c.2 split start s) := by
  have := @lookup_of_leaf fs (splitIndex fs ix c.2 split start s) hd.list
    (hd.recs_eq ▸ hd.first hix) h' hlt
  rwa [hd.recs_eq] at this

theorem Done.room_iff : ∃ cpos blk leaf', dxDirLookup fs h (splitIndex fs ix c.2 split start s) =
        some (.ok (cpos, blk), splitIndex fs ix c.2 split start s) ∧
      (splitIndex fs ix c.2 split start s).leaves blk = some leaf' ∧
      (leaf'.dlList.full = false ↔ ¬Stuck leaf.dlList.deEntries c.1 h.majorHash) := by
  have hi := dxDirHashIdx_lt fs h.minorHash
  have hdc := (hix.shape.aligned hd.sel.1).1
  have hshape := hd.shape hix
  obtain ⟨hlen, hcount⟩ := hix.full_length hd.sel.1 hi hd.leafAt hd.full
  obtain ⟨c', hsel', hlook⟩ := hd.lookup hix h (lt_of_lt_of_le hd.lt (by decide))
  by_cases hle : split ≤ h.majorHash
  · -- the new hash goes to the new cluster
    obtain rfl := selects_new hshape hd.perm hd.sel hd.spec.above hle hsel'
    refine ⟨_, _, _, hlook, splitIndex_new hdc hd.aligned (hd.fresh c hd.sel.1) hi hd.leafAt, ?_⟩
    have hfnew : (takeFrom fs split (start + dxDirHashIdx fs h.minorHash)
        leaf.dlList.deEntries).dlList.full = false ↔
          ∃ e ∈ leaf.dlList.deEntries, e.major < split := by
      refine (full_filter hlen).trans ?_
      simp
    rw [hfnew, hd.spec.stuck]
    constructor
    · rintro ⟨e, he, hlt⟩ hall
      have := hall.2 e he
      omega
    · intro hns
      by_contra hnot
      exact hns ⟨hle, fun e he => not_lt.mp fun hlt => hnot ⟨e, he, hlt⟩⟩
  · -- it stays, and some entry has gone
    obtain rfl := selects_old hshape hd.perm hd.sel (by omega) hsel'
    refine ⟨_, _, _, hlook, splitIndex_old hi hd.leafAt, ?_⟩
    have hfold : (keepBelow split leaf).dlList.full = false ↔
        ∃ e ∈ leaf.dlList.deEntries, split ≤ e.major := by
      have := @full_filter leaf.dlList.deEntries (fun e => decide (e.major < split)) _ hlen
      rw [← hcount] at this
      refine this.trans ?_
      simp
    rw [hfold, hd.spec.stuck]
    exact ⟨fun _ hall => hle hall.1, fun _ => hd.spec.goes (by omega)⟩

end Splitting

/-! ### The search for space -/

theorem restartSearch_run (hlook : dxDirLookup fs h ix = some (.ok (cpos, blk), ix))
    (hleaf : ix.leaves blk = some leaf) :
    restartSearch fs h ix = some (.ok (cpos, blk, leaf), ix) := by
  rw [restartSearch, Prog.bind_ok hlook, Prog.bind_ok (readDxLeaf_run hleaf)]
  rfl

/-- What is asked of a split: it returns; if it returns 0 there is room; and the search for
    space reports none only if all entries of the full leaf have the new hash. -/
structure SplitOk (env : Env) (fs : Filesys) (ix : Index) (h : Hinfo) (leaf : DxLeaf)
    (cpos blk : Nat) : Prop where
  returns : dxDirRebalance env fs leaf h cpos blk ix ≠ none
  room : ∀ ix', dxDirRebalance env fs leaf h cpos blk ix = some (.ok (), ix') → Room fs ix' h
  noSpace : ∀ ix', findDirSpaceDx env fs h ix = some (.error .dirNoSpace, ix') →
    ∀ e ∈ leaf.dlList.deEntries, e.major = h.majorHash

theorem findDirSpaceDx_full (hlook : dxDirLookup fs h ix = some (.ok (cpos, blk), ix))
    (hleaf : ix.leaves blk = some leaf) (hfull : leaf.dlList.full = true) :
    findDirSpaceDx env fs h ix = (dxDirRebalance env fs leaf h cpos blk >>= fun _ =>
      restartSearch fs h >>= fun y =>
        if y.2.2.dlList.full then Prog.fail .dirNoSpace else pure y.2.1) ix := by
  rw [findDirSpaceDx, Prog.bind_ok (restartSearch_run hlook hleaf)]
  rw [if_pos hfull]

theorem SplitOk.of_error {cpos blk : Nat} {leaf : DxLeaf} {e : Errcode} {ix' : Index}
    (hlook : dxDirLookup fs h ix = some (.ok (cpos, blk), ix)) (hleaf : ix.leaves blk = some leaf)
    (hfull : leaf.dlList.full = true)
    (hres : dxDirRebalance env fs leaf h cpos blk ix = some (.error e, ix'))
    (hsame : e = .dirNoSpace → ∀ x ∈ leaf.dlList.deEntries, x.major = h.majorHash) :
    SplitOk env fs ix h leaf cpos blk := by
  refine ⟨by rw [hres]; simp, fun ix'' hok => ?_, fun ix'' hns => ?_⟩
  · rw [hres] at hok
    cases hok
  · rw [findDirSpaceDx_full hlook hleaf hfull, Prog.bind_error hres] at hns
    cases hns
    exact hsame rfl

/-- More than half of the entries have the smallest hash 5, and the others have 9. -/
def twoHashes : List DxEntry :=
  List.replicate 15 ⟨⟨5, 0⟩, 100⟩ ++ List.replicate 14 ⟨⟨9, 0⟩, 100⟩

theorem twoHashes_wf : WfIndex leafFs (oneLeafIndex twoHashes) :=
  oneLeaf_wf (by decide) (by decide)

theorem twoHashes_not_stuck : ¬Stuck twoHashes 0 3 := by
  rintro ⟨m, hpos, hle, _, _, hmost⟩
  have hm : m = 1 ∨ m = 2 ∨ m = 3 := by omega
  rcases hm with rfl | rfl | rfl <;> exact absurd hmost (by decide)

def errorOf (x : Except Errcode Nat × Index) : Option Errcode :=
  match x.1 with
  | .error e => some e
  | .ok _ => none

end Ocfs2Tools.DxDir
