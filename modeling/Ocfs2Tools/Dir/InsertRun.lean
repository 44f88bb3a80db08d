import Ocfs2Tools.Dir.InsertStep

/-!
# Any number of insertions

After any sequence of successful insertions into an empty index every entry is stored once,
in the leaf that a lookup of its hash selects, as long as the records of the index fit into the
root block and none of them gets more clusters than it can count. This needs that no hash is the
last one, `0xffffffff`: a name with this hash can make a record of two clusters end at the end
of the hashes, and then the entries of the first of them are no longer found. `dr_num_entries` is
right as long as it does not wrap around.
-/

namespace Ocfs2Tools.DxDir

open List Prog

variable {fs : Filesys} {env : Env} {ix ix' : Index} {log : List DxEntry} {e : DxEntry}
  {h : Hinfo} {es : List DxEntry} {P : Index → Prop}

/-- Successful insertions, the first one into an empty inline root and each into an index with
    `P`. What the allocator does may change from one to the next. -/
inductive Insertions (fs : Filesys) (P : Index → Prop) : Index → List DxEntry → Prop where
  | start (leaves : Nat → Option DxLeaf) (st : St) : Insertions fs P ⟨emptyRoot fs, leaves, st⟩ []
  | insert {ix : Index} {log : List DxEntry} (env : Env) (e : DxEntry) (ix' : Index)
      (before : Insertions fs P ix log) (meets : P ix) (ok : env.Ok fs)
      (run : dxDirInsert env fs e.dxHash e.dxDirentBlk ix = some (.ok (), ix')) :
      Insertions fs P ix' (log ++ [e])

/-- An index with leaves has a free record in its root block, and no record is as long as its
    16 bits can say. -/
def Index.Spare (ix : Index) : Prop := ix.root.inline = false → Takes ix

/-! ### The invariant -/

structure Inv (fs : Filesys) (ix : Index) (log : List DxEntry) : Prop where
  stage : InRoot fs ix log ∨ Holds fs ix log
  count : ix.root.drNumEntries = log.length

theorem InRoot.insert (hir : InRoot fs ix log) (hroom : ix.root.drEntries.full = false)
    (hrun : insertIntoRoot e.dxHash e.dxDirentBlk ix = some (.ok (), ix')) :
    InRoot fs ix' (log ++ [e]) ∧ ix'.root.drNumEntries = addW 32 ix.root.drNumEntries 1 := by
  cases hrun
  have hlt := full_eq_false.mp hroom
  rw [hir.entries] at hlt
  refine ⟨⟨hir.inline, ?_, ?_⟩, rfl⟩
  · dsimp only
    rw [hir.entries]
    rfl
  · rw [length_append]
    exact hlt

theorem dxDirInsert_tree {blocknr : Nat} (htree : ix.root.inline = false) :
    dxDirInsert env fs h blocknr ix = insertIntoTree env fs h blocknr ix := by
  rw [dxDirInsert, bind_ok (get_run ix), if_neg (by rw [htree]; decide)]

theorem Inv.step (hinv : Inv fs ix log) (henv : env.Ok fs) (hspare : ix.Spare)
    (hlog : ∀ e ∈ log, e.major < uint32Max) (hlt : e.major < uint32Max)
    (hlen : log.length + 1 < 4294967296)
    (hrun : dxDirInsert env fs e.dxHash e.dxDirentBlk ix = some (.ok (), ix')) :
    Inv fs ix' (log ++ [e]) := by
  have hcount : ∀ {n}, n = addW 32 ix.root.drNumEntries 1 → n = (log ++ [e]).length := by
    intro n hn
    rw [hn, hinv.count, addW_32_eq hlen, length_append]
    rfl
  rcases hinv.stage with hir | hh
  · rw [dxDirInsert, bind_ok (get_run ix), if_pos hir.inline] at hrun
    split at hrun
    · obtain ⟨_, ix₁, hexp, hrun⟩ := bind_eq_ok hrun
      obtain ⟨start, s, hcl, hins, rfl⟩ := expandInlineDxRoot_run hexp
      obtain ⟨hh, htakes⟩ := hir.expanded_holds hlog henv hcl hins
      rw [hir.entries] at hrun
      obtain ⟨hh', hnum⟩ := insertIntoTree_holds henv hh htakes hlt hrun
      exact ⟨.inr hh', hcount hnum⟩
    · next hfull =>
      obtain ⟨hir', hnum⟩ := hir.insert (by simpa using hfull) hrun
      exact ⟨.inl hir', hcount hnum⟩
  · rw [dxDirInsert_tree hh.wf.tree] at hrun
    obtain ⟨hh', hnum⟩ := insertIntoTree_holds henv hh (hspare hh.wf.tree) hlt hrun
    exact ⟨.inr hh', hcount hnum⟩

theorem Insertions.inv (hrun : Insertions fs Index.Spare ix log)
    (hlog : ∀ e ∈ log, e.major < uint32Max) (hlen : log.length < 4294967296) : Inv fs ix log := by
  induction hrun with
  | start leaves st => exact ⟨.inl ⟨rfl, rfl, Nat.zero_le _⟩, rfl⟩
  | insert env e ix' before meets ok run ih =>
    rw [length_append] at hlen
    have hlog' := fun x hx => hlog x (mem_append_left _ hx)
    refine (ih hlog' (by omega)).step ok meets hlog' ?_ hlen run
    exact hlog e (mem_append_right _ mem_cons_self)

/-! ### What it means for the index -/

/-- The entries `log` are stored in the index: each once, where its hash is looked up. -/
structure Stored (fs : Filesys) (ix : Index) (log : List DxEntry) : Prop where
  once : (ix.entries fs).Perm log
  found : ix.root.inline = false → ∀ c ∈ clusters fs ix.recs, ∀ i < fs.bpc,
    ∀ e ∈ ix.entriesAt (c.2 + i), dxDirLookup fs e.dxHash ix = some (.ok (c.1, c.2 + i), ix)
  count : ix.root.drNumEntries = log.length
  root : ix.root.inline = true → ix.root.drEntries.deNumUsed ≤ ix.root.drEntries.deCount
  leaves : ix.root.inline = false → ∀ c ∈ clusters fs ix.recs, ∀ i < fs.bpc,
    ∃ leaf, ix.leaves (c.2 + i) = some leaf ∧ leaf.dlList.deNumUsed ≤ leaf.dlList.deCount

theorem InRoot.stored (hir : InRoot fs ix log) (hcount : ix.root.drNumEntries = log.length) :
    Stored fs ix log := by
  have hno : ix.root.inline ≠ false := by
    rw [hir.inline]
    decide
  refine ⟨?_, fun hf => absurd hf hno, hcount, fun _ => ?_, fun hf => absurd hf hno⟩
  · rw [Index.entries, hir.inline, if_pos rfl, hir.entries]
  · rw [hir.entries]
    exact hir.fits

theorem Holds.stored (hh : Holds fs ix log) (hcount : ix.root.drNumEntries = log.length) :
    Stored fs ix log := by
  refine ⟨hh.entries, ?_, hcount, fun hi => ?_, ?_⟩
  · intro _ c hc i hi e he
    obtain ⟨hidx, hsel, hlt⟩ := hh.wf.placed c hc i hi e he
    obtain ⟨c', hsel', hlook⟩ := hh.wf.lookup e.dxHash (lt_of_lt_of_le hlt (by decide))
    obtain rfl := hsel'.unique hh.wf.shape hsel
    rw [hlook, ← hidx]
    rfl
  · rw [hh.wf.tree] at hi
    cases hi
  · intro _ c hc i hi
    obtain ⟨leaf, hleaf, _, hn, hused⟩ := hh.wf.leaf c hc i hi
    exact ⟨leaf, hleaf, by rw [hn]; exact hused⟩

/-- Fewer than 2³² insertions of hashes below the last one are stored. -/
theorem insertions_stored (fs : Filesys) (ix : Index) (log : List DxEntry)
    (hrun : Insertions fs Index.Spare ix log) (hfits : ∀ e ∈ log, e.major < 4294967296)
    (hlast : ∀ e ∈ log, e.major ≠ 4294967295) (hlen : log.length < 4294967296) :
    Stored fs ix log := by
  have hlog : ∀ e ∈ log, e.major < uint32Max := by
    intro e he
    have h1 := hfits e he
    have h2 := hlast e he
    show e.major < 4294967295
    omega
  have hinv := hrun.inv hlog hlen
  rcases hinv.stage with hir | hh
  · exact hir.stored hinv.count
  · exact hh.stored hinv.count

/-! ### Runs with a fixed allocator -/

instance (ix : Index) : Decidable (Takes ix) :=
  decidable_of_iff (_ ∧ _) ⟨fun h => ⟨h.1, h.2⟩, fun h => ⟨h.free, h.short⟩⟩

instance (ix : Index) : Decidable ix.Spare :=
  inferInstanceAs (Decidable (_ → _))

/-- One insertion after the other, each into an index with `P`. -/
def insertAll (fs : Filesys) (P : Index → Prop) [DecidablePred P] :
    List DxEntry → Index → Option Index
  | [], ix => some ix
  | e :: es, ix =>
    if P ix then
      match dxDirInsert (plainEnv fs) fs e.dxHash e.dxDirentBlk ix with
      | some (.ok _, ix') => insertAll fs P es ix'
      | _ => none
    else none

theorem Insertions.all [DecidablePred P] (hins : Insertions fs P ix log)
    (hrun : insertAll fs P es ix = some ix') : Insertions fs P ix' (log ++ es) := by
  induction es generalizing ix log with
  | nil =>
    cases hrun
    rwa [append_nil]
  | cons e es ih =>
    rw [insertAll] at hrun
    split at hrun
    · next hP =>
      split at hrun
      · next ix₁ hstep =>
        rw [append_cons]
        exact ih (.insert (plainEnv fs) e ix₁ hins hP (plainEnv_ok fs) hstep) hrun
      · cases hrun
    · cases hrun

def newIndex (fs : Filesys) : Index :=
  ⟨emptyRoot fs, fun _ => none, smallSt [] (smallInode 0 (listOf 0 0 [])) []⟩

theorem Insertions.getD [DecidablePred P] (hrun : (insertAll fs P es (newIndex fs)).isSome) :
    Insertions fs P ((insertAll fs P es (newIndex fs)).getD (newIndex fs)) es := by
  obtain ⟨ix, hix⟩ := Option.isSome_iff_exists.mp hrun
  rw [hix]
  exact Insertions.all (.start _ _) hix

/-! ### Two clusters at the end of the hashes -/

def nearLast : DxEntry := ⟨⟨4294967294, 0⟩, 100⟩

/-- 29 entries with the last hash but one, and one with hash 0: two clusters. -/
def fullLast : List DxEntry := List.replicate 29 nearLast ++ [⟨⟨0, 0⟩, 100⟩]

def twoClusters : Index :=
  (insertAll leafFs Index.Spare fullLast (newIndex leafFs)).getD (newIndex leafFs)

/-- They are all found. -/
theorem insertions_stored_two :
    twoClusters.root.inline = false ∧ Stored leafFs twoClusters fullLast :=
  ⟨by decide +kernel, insertions_stored leafFs twoClusters fullLast
    (Insertions.getD (by decide +kernel)) (by decide) (by decide) (by decide)⟩

/-- A name with the last hash splits the second cluster, and the new one behind it becomes a
    part of its record. -/
def mergedIndex : Index :=
  (insertAll leafFs (fun _ => True) (fullLast ++ [⟨⟨4294967295, 0⟩, 100⟩])
    (newIndex leafFs)).getD (newIndex leafFs)

/-- The entries with the last hash but one are in block 16, but a lookup leads to block 24. -/
theorem insertions_not_found :
    Insertions leafFs (fun _ => True) mergedIndex (fullLast ++ [⟨⟨4294967295, 0⟩, 100⟩]) ∧
    nearLast ∈ mergedIndex.entriesAt 16 ∧
    (dxDirLookup leafFs nearLast.dxHash mergedIndex).map (·.1) = some (.ok (4294967295, 24)) ∧
    ¬Stored leafFs mergedIndex (fullLast ++ [⟨⟨4294967295, 0⟩, 100⟩]) := by
  have hat : nearLast ∈ mergedIndex.entriesAt 16 := by decide +kernel
  have hlook : (dxDirLookup leafFs nearLast.dxHash mergedIndex).map (·.1) =
      some (.ok (4294967295, 24)) := by decide +kernel
  refine ⟨Insertions.getD (by decide +kernel), hat, hlook, ?_⟩
  intro hst
  have hfound := hst.found (by decide +kernel) (4294967294, 16) (by decide +kernel) 0 (by decide)
    nearLast hat
  rw [hfound] at hlook
  cases hlook

end Ocfs2Tools.DxDir
