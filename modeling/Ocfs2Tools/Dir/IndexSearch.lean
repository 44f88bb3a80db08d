import Ocfs2Tools.Dir.Dirent
import Ocfs2Tools.Dir.IndexShape

/-!
# Searching a name in an indexed directory

`ocfs2_dx_dir_search` takes the leaf that the hash of the name selects and goes through its
entries with the same hash; each of them leads to a directory block that is scanned for the
name itself. A leaf without any entry counts as corruption, although the last name of a leaf
may have been removed, or its entries moved by a split.
-/

namespace Ocfs2Tools.DxDir

open Dir List Prog

variable {x off : Nat} {l : EntryList} {leaf : Option Nat}

/-! ### One directory block -/

abbrev Name : Type := List UInt8

def nameAt (b : Buf) (a : Nat) : Name := bytesAt b (a + dirMemberLen) (nameLen b a)

/-- `ocfs2_match`. -/
def matchName (name : Name) (b : Buf) (a : Nat) : Bool :=
  name.length == nameLen b a && inode b a != 0 && name == bytesAt b (a + dirMemberLen) name.length

/-- `ocfs2_check_dir_entry`. -/
def checkDirEntry (fs : Filesys) (b : Buf) (a : Nat) : Bool :=
  decide (dirRecLen 1 ≤ recLen b a) && recLen b a % 4 == 0 &&
    decide (dirRecLen (nameLen b a) ≤ recLen b a) && decide (a ≤ fs.fsBlocksize)

/-- What `ocfs2_search_dirblock` returns: 1 with the entry, 0 or -1. -/
inductive Found where
  | at (offset : Nat)
  | no
  | corrupt
deriving DecidableEq, Repr

/-- The loop of `ocfs2_search_dirblock` from the entry at `a`; an entry takes at least one
    byte, so `bytes` rounds are enough. -/
def searchLoop (fs : Filesys) (b : Buf) (name : Name) (bytes : Nat) : Nat → Nat → Found
  | 0, _ => .no
  | fuel + 1, a =>
    if a < bytes then
      if a + name.length ≤ bytes && matchName name b a then
        if checkDirEntry fs b a then .at a else .corrupt
      else if recLen b a = 0 then .corrupt
      else searchLoop fs b name bytes fuel (a + recLen b a)
    else .no

def searchDirblock (fs : Filesys) (b : Buf) (name : Name) (bytes : Nat) : Found :=
  searchLoop fs b name bytes bytes 0

/-! ### The search -/

/-- `struct ocfs2_dir_lookup_result`, as far as the search fills it in; without a leaf, for
    an inline index, `dlDxLeafBlkno` is `none`. -/
structure LookupResult where
  dlLeafBlkno : Nat
  dlEntry : Nat
  dlDxEntryIdx : Nat
  dlDxLeafBlkno : Option Nat
deriving DecidableEq, Repr

/-- The loop of `ocfs2_dx_dir_search` over the entries from index `i` on: the block, the
    offset and the index of the entry. -/
def searchEntries (fs : Filesys) (blocks : Nat → Option Buf) (name : Name) (h : Hinfo) :
    Nat → List DxEntry → Except Errcode (Nat × Nat × Nat)
  | _, [] => .error .fileNotFound
  | i, e :: rest =>
    if h ≠ e.dxHash then searchEntries fs blocks name h (i + 1) rest
    else
      match blocks e.dxDirentBlk with
      | none => .error .io
      | some b =>
        match searchDirblock fs b name fs.fsBlocksize with
        | .at a => .ok (e.dxDirentBlk, a, i)
        | .corrupt => .error .dirCorrupted
        | .no => searchEntries fs blocks name h (i + 1) rest

/-- The entry list that a hash selects, with the block of its leaf. -/
def selectList (fs : Filesys) (h : Hinfo) : Dx (EntryList × Option Nat) := do
  let ix ← Prog.get
  if ix.root.inline then pure (ix.root.drEntries, none)
  else do
    let x ← dxDirLookup fs h
    let leaf ← readDxLeaf x.2
    pure (leaf.dlList, some x.2)

/-- `ocfs2_dx_dir_search`. -/
def dxDirSearch (fs : Filesys) (blocks : Nat → Option Buf) (name : Name) (h : Hinfo) :
    Dx LookupResult := do
  let x ← selectList fs h
  let ix ← Prog.get
  if x.1.deCount = 0 ∨ x.1.deNumUsed = 0 ∨ ix.root.drNumEntries = 0 then fail .dirCorrupted
  else do
    let y ← ofExcept (searchEntries fs blocks name h 0 x.1.deEntries)
    pure ⟨y.1, y.2.1, y.2.2, x.2⟩

/-! ### Directories -/

/-- An offset where the chain of entries of a block comes by. -/
inductive OnChain (b : Buf) : Nat → Prop where
  | start : OnChain b 0
  | next {a : Nat} (h : OnChain b a) : OnChain b (a + recLen b a)

/-- A directory: its blocks, and the index over them. -/
structure Directory where
  blocks : List Nat
  data : Nat → Option Buf
  index : Index

/-- The name is in the directory, in this block and at this offset. -/
def Directory.Has (fs : Filesys) (d : Directory) (name : Name) (blk off : Nat) : Prop :=
  blk ∈ d.blocks ∧ ∃ b, d.data blk = some b ∧ OnChain b off ∧ off < fs.fsBlocksize ∧
    inode b off ≠ 0 ∧ nameAt b off = name

/-- An index with leaves: all of them are there, and every entry is in the one that its hash
    belongs into. -/
structure LeavesOk (fs : Filesys) (ix : Index) : Prop where
  tree : TreeOk fs ix
  leaf : ∀ c ∈ clusters fs ix.recs, ∀ i < fs.bpc, ∃ leaf, ix.leaves (c.2 + i) = some leaf ∧
    leaf.dlList.deNumUsed ≤ leaf.dlList.deCount ∧ 0 < leaf.dlList.deCount
  placed : ∀ c ∈ clusters fs ix.recs, ∀ i < fs.bpc, ∀ e ∈ ix.entriesAt (c.2 + i),
    dxDirHashIdx fs e.minor = i ∧ Selects fs ix.recs e.major c ∧ e.major < 4294967296

/-- A directory with a consistent index: the blocks are chains of entries, no name is there
    twice, every entry of the index leads to a block of the directory, every name has an
    entry, and `dr_num_entries` counts the entries. -/
structure Directory.Consistent (fs : Filesys) (hash : Name → Hinfo) (d : Directory) : Prop where
  hashed : ∀ name, (hash name).majorHash < 4294967296
  tiled : ∀ blk ∈ d.blocks, ∃ b, d.data blk = some b ∧ Dir.Tiled b fs.fsBlocksize 0
  unique : ∀ name blk off blk' off', d.Has fs name blk off → d.Has fs name blk' off' →
    blk = blk' ∧ off = off'
  leads : ∀ e ∈ d.index.entries fs, e.dxDirentBlk ∈ d.blocks
  indexed : ∀ name blk off, d.Has fs name blk off → ⟨hash name, blk⟩ ∈ d.index.entries fs
  counted : d.index.root.drNumEntries = (d.index.entries fs).length
  inline : d.index.root.inline = true → 0 < d.index.root.drEntries.deCount
  leaves : d.index.root.inline = false → LeavesOk fs d.index

variable {fs : Filesys} {b : Buf} {name : Name} {a bytes fuel : Nat}

/-! ### The scan of a block -/

theorem matchName_iff : matchName name b a = true ↔ inode b a ≠ 0 ∧ nameAt b a = name := by
  unfold matchName nameAt
  simp only [Bool.and_eq_true, beq_iff_eq, bne_iff_ne]
  constructor
  · rintro ⟨⟨hlen, hino⟩, hname⟩
    rw [← hlen]
    exact ⟨hino, hname.symm⟩
  · rintro ⟨hino, hname⟩
    have hlen : name.length = nameLen b a := by rw [← hname, bytesAt_length]
    rw [hlen]
    exact ⟨⟨rfl, hino⟩, hname.symm⟩

theorem checkDirEntry_of_ok (h : EntryOk b a) (ha : a ≤ fs.fsBlocksize) :
    checkDirEntry fs b a = true := by
  simp [checkDirEntry, h.min, h.aligned, h.name, ha]

/-- The chain from `a` on, up to a limit. -/
inductive ChainFrom (b : Buf) (a : Nat) : Nat → Prop where
  | here : ChainFrom b a a
  | next {x : Nat} (h : ChainFrom b a x) : ChainFrom b a (x + recLen b x)

theorem ChainFrom.le (h : ChainFrom b a x) : a ≤ x := by
  induction h with
  | here => exact le_refl _
  | next _ ih => omega

theorem ChainFrom.head (h : ChainFrom b a x) : x = a ∨ ChainFrom b (a + recLen b a) x := by
  induction h with
  | here => exact .inl rfl
  | next _ ih =>
    rcases ih with rfl | ih
    · exact .inr .here
    · exact .inr ih.next

theorem ChainFrom.cons {x : Nat} (h : ChainFrom b (a + recLen b a) x) : ChainFrom b a x := by
  induction h with
  | here => exact ChainFrom.here.next
  | next _ ih => exact ih.next

theorem onChain_iff : OnChain b x ↔ ChainFrom b 0 x := by
  constructor
  · intro h
    induction h with
    | start => exact .here
    | next _ ih => exact ih.next
  · intro h
    induction h with
    | here => exact .start
    | next _ ih => exact ih.next

theorem searchLoop_spec (hle : bytes ≤ fs.fsBlocksize) (ht : Dir.Tiled b bytes a) :
    ∀ fuel, bytes - a ≤ fuel →
      (∃ x, searchLoop fs b name bytes fuel a = .at x ∧ ChainFrom b a x ∧ x < bytes ∧
        inode b x ≠ 0 ∧ nameAt b x = name) ∨ (searchLoop fs b name bytes fuel a = .no ∧
        ∀ x, ChainFrom b a x → x < bytes → ¬(inode b x ≠ 0 ∧ nameAt b x = name)) := by
  induction ht with
  | nil =>
    intro fuel _
    refine .inr ⟨?_, ?_⟩
    · cases fuel with
      | zero => rfl
      | succ fuel => rw [searchLoop, if_neg (lt_irrefl _)]
    · intro x hx hlt
      exact absurd hx.le (by omega)
  | cons a ok rest ih =>
    intro fuel hfuel
    have hmin : 16 ≤ recLen b a := ok.min
    have hend := rest.le
    cases fuel with
    | zero => omega
    | succ fuel =>
      rw [searchLoop, if_pos (by omega)]
      by_cases hm : inode b a ≠ 0 ∧ nameAt b a = name
      · -- the entry is the one
        have hroom : a + name.length ≤ bytes := by
          have hlen : name.length = nameLen b a := by rw [← hm.2, nameAt, bytesAt_length]
          have hname := ok.name
          unfold dirRecLen at hname
          omega
        refine .inl ⟨a, ?_, .here, by omega, hm⟩
        rw [if_pos (by simp [hroom, matchName_iff.mpr hm]),
          if_pos (checkDirEntry_of_ok ok (by omega))]
      · have hnot : ¬(decide (a + name.length ≤ bytes) && matchName name b a) = true := by
          simp only [Bool.and_eq_true, matchName_iff, not_and]
          intro _
          simpa using hm
        rw [if_neg hnot, if_neg (by omega)]
        rcases ih fuel (by omega) with ⟨x, hx, hc, hlt, hmx⟩ | ⟨hno, hall⟩
        · exact .inl ⟨x, hx, hc.cons, hlt, hmx⟩
        · refine .inr ⟨hno, ?_⟩
          intro x hx hlt
          rcases hx.head with rfl | hx
          · exact hm
          · exact hall x hx hlt

theorem searchDirblock_spec (ht : Dir.Tiled b fs.fsBlocksize 0) :
    (∃ x, searchDirblock fs b name fs.fsBlocksize = .at x ∧ OnChain b x ∧ x < fs.fsBlocksize ∧
      inode b x ≠ 0 ∧ nameAt b x = name) ∨ (searchDirblock fs b name fs.fsBlocksize = .no ∧
      ∀ x, OnChain b x → x < fs.fsBlocksize → ¬(inode b x ≠ 0 ∧ nameAt b x = name)) := by
  simp only [onChain_iff]
  exact searchLoop_spec (le_refl _) ht fs.fsBlocksize (Nat.sub_le _ _)

/-! ### The entries of a list -/

variable {d : Directory} {hash : Name → Hinfo} {h : Hinfo}

/-- Through the entries from index `i` on: the name is found behind one of them with the
    same hash, or it is in none of the blocks they lead to. -/
theorem searchEntries_spec
    (ht : ∀ blk ∈ d.blocks, ∃ b, d.data blk = some b ∧ Dir.Tiled b fs.fsBlocksize 0) (es i)
    (hlead : (∀ e ∈ es, e.dxDirentBlk ∈ d.blocks)) :
    (∃ k blk off, searchEntries fs d.data name h i es = .ok (blk, off, i + k) ∧ es[k]? = some ⟨h,
      blk⟩ ∧ d.Has fs name blk off) ∨ (searchEntries fs d.data name h i es = .error .fileNotFound ∧
      ∀ blk off, ⟨h, blk⟩ ∈ es → ¬d.Has fs name blk off) := by
  induction es generalizing i with
  | nil => exact .inr ⟨rfl, nofun⟩
  | cons e rest ih =>
    have hrest := ih (i + 1) fun e' he' => hlead e' (mem_cons_of_mem _ he')
    -- what the rest finds, seen from here, if the name is not behind `e`
    have hlift : (∀ off, e.dxHash = h → ¬d.Has fs name e.dxDirentBlk off) →
        searchEntries fs d.data name h i (e :: rest) = searchEntries fs d.data name h (i + 1) rest →
        (∃ k blk off, searchEntries fs d.data name h i (e :: rest) = .ok (blk, off, i + k) ∧
          (e :: rest)[k]? = some ⟨h, blk⟩ ∧ d.Has fs name blk off) ∨
        (searchEntries fs d.data name h i (e :: rest) = .error .fileNotFound ∧
          ∀ blk off, ⟨h, blk⟩ ∈ e :: rest → ¬d.Has fs name blk off) := by
      intro hnot hrun
      rw [hrun]
      rcases hrest with ⟨k, blk, off, hok, hk, hhas⟩ | ⟨herr, hall⟩
      · refine .inl ⟨k + 1, blk, off, ?_, hk, hhas⟩
        rw [hok, Nat.add_right_comm, Nat.add_assoc]
      · refine .inr ⟨herr, ?_⟩
        intro blk off hmem
        rcases mem_cons.mp hmem with heq | hmem
        · rw [← heq] at hnot
          exact hnot off rfl
        · exact hall blk off hmem
    by_cases hh : h = e.dxHash
    · obtain ⟨b, hb, htile⟩ := ht e.dxDirentBlk (hlead e mem_cons_self)
      rcases @searchDirblock_spec fs b name htile with ⟨x, hx, hc, hlt, hm⟩ | ⟨hno, hall⟩
      · refine .inl ⟨0, e.dxDirentBlk, x, ?_, ?_, hlead e mem_cons_self, b, hb, hc, hlt, hm⟩
        · rw [searchEntries, if_neg (not_not.mpr hh), hb]
          dsimp only
          rw [hx]
          rfl
        · rw [getElem?_cons_zero, hh]
      · apply hlift
        · rintro off _ ⟨_, b', hb', hc, hlt, hm⟩
          rw [hb] at hb'
          cases hb'
          exact hall off hc hlt hm
        · rw [searchEntries, if_neg (not_not.mpr hh), hb]
          dsimp only
          rw [hno]
    · exact hlift (fun _ heq => absurd heq.symm hh) (by rw [searchEntries, if_pos hh])

/-! ### The list that is selected -/

/-- The hash falls into a record that wraps around, and is not the last one. -/
def Hidden (recs : List ExtentRec) (hash : Nat) : Prop :=
  hash < 4294967295 ∧ ∃ r, floorRec hash recs = some r ∧ Wraps r

/-- Where the search looks: in the root, or in a leaf, which is not the one that the hash belongs
    into if the hash is hidden. -/
inductive LooksIn (fs : Filesys) (ix : Index) (h : Hinfo) : EntryList → Option Nat → Prop where
  | root (inline : ix.root.inline = true) : LooksIn fs ix h ix.root.drEntries none
  | leaf (tree : ix.root.inline = false) (c : Nat × Nat) (leaf : DxLeaf)
      (mem : c ∈ clusters fs ix.recs)
      (at' : ix.leaves (c.2 + dxDirHashIdx fs h.minorHash) = some leaf)
      (cluster : ¬Hidden ix.recs h.majorHash ∧ Selects fs ix.recs h.majorHash c ∨
        Hidden ix.recs h.majorHash ∧ c.1 = 4294967295) :
      LooksIn fs ix h leaf.dlList (some (c.2 + dxDirHashIdx fs h.minorHash))

variable {ix : Index}

theorem Selects.last {recs : List ExtentRec} {c : Nat × Nat} (hs : Shape fs recs)
    (hc : c ∈ clusters fs recs) (h1 : c.1 = 4294967295) : Selects fs recs 4294967295 c := by
  refine ⟨hc, le_of_eq h1, fun c' hc' _ => ?_⟩
  have := (clusters_bounds hs.spaced hc').2
  omega

theorem selectList_looksIn (hd : d.Consistent fs hash) (hlt : h.majorHash < 4294967296) :
    ∃ l leaf, selectList fs h d.index = some (.ok (l, leaf), d.index) ∧
      LooksIn fs d.index h l leaf ∧
      0 < l.deCount := by
  rw [selectList, bind_ok (get_run _)]
  cases hin : d.index.root.inline with
  | true => exact ⟨_, none, by simp [pure_run], .root hin, hd.inline hin⟩
  | false =>
    have hok := hd.leaves hin
    obtain ⟨r, hr, c, hc, hlook, hcase⟩ := hok.tree.lookup h hlt
    obtain ⟨leaf, hleaf, -, hpos⟩ := hok.leaf c hc _ (dxDirHashIdx_lt fs h.minorHash)
    refine ⟨leaf.dlList, _, ?_, .leaf hin c leaf hc hleaf ?_, hpos⟩
    · rw [if_neg (by decide), bind_ok hlook, bind_ok (readDxLeaf_run hleaf)]
      rfl
    · rcases hcase with ⟨hnw, hsel⟩ | ⟨hw, hlast⟩
      · refine .inl ⟨?_, hsel⟩
        rintro ⟨-, r', hr', hw⟩
        rw [hr] at hr'
        cases hr'
        exact hnw hw
      · by_cases hh : h.majorHash = 4294967295
        · exact .inl ⟨fun hid => by have := hid.1; omega, hh ▸ .last hok.tree.shape hc hlast⟩
        · exact .inr ⟨⟨by omega, r, hr, hw⟩, hlast⟩

theorem LooksIn.mem_entries (hl : LooksIn fs ix h l leaf) {e : DxEntry} (he : e ∈ l.deEntries) :
    e ∈ ix.entries fs := by
  cases hl with
  | root inline => rwa [Index.entries, if_pos inline]
  | leaf tree c leaf mem at' cluster =>
    refine (DxDir.mem_entries tree).mpr ⟨c, mem, _, dxDirHashIdx_lt fs h.minorHash, ?_⟩
    rwa [Index.entriesAt, at']

/-- An entry is in the list its hash belongs into; a hidden one is not where the search looks. -/
theorem LooksIn.mem_iff (hl : LooksIn fs ix h l leaf)
    (hok : ix.root.inline = false → LeavesOk fs ix) {blk : Nat} :
    (⟨h, blk⟩ : DxEntry) ∈ l.deEntries ↔ ⟨h, blk⟩ ∈ ix.entries fs ∧
      (ix.root.inline = false → ¬Hidden ix.recs h.majorHash) := by
  refine ⟨fun he => ⟨hl.mem_entries he, ?_⟩, ?_⟩
  · cases hl with
    | root inline => exact fun hno => by rw [inline] at hno; cases hno
    | leaf tree c leaf mem at' cluster =>
      intro _ hid
      obtain ⟨-, hlast⟩ := cluster.resolve_left fun hc => hc.1 hid
      have hsel := ((hok tree).placed c mem _ (dxDirHashIdx_lt fs h.minorHash) ⟨h, blk⟩
        (by rwa [Index.entriesAt, at'])).2.1
      have hle : c.1 ≤ h.majorHash := hsel.2.1
      have := hid.1
      omega
  · rintro ⟨he, hvis⟩
    cases hl with
    | root inline => rwa [Index.entries, if_pos inline] at he
    | leaf tree c leaf mem at' cluster =>
      have hok := hok tree
      obtain ⟨-, hsel⟩ := cluster.resolve_right fun hc => hvis tree hc.1
      obtain ⟨c', hc', i, hi, hat⟩ := (DxDir.mem_entries tree).mp he
      obtain ⟨hidx, hsel', -⟩ := hok.placed c' hc' i hi _ hat
      obtain rfl := hsel'.unique hok.tree.shape hsel
      have hidx : dxDirHashIdx fs h.minorHash = i := hidx
      rwa [← hidx, Index.entriesAt, at'] at hat

/-! ### The whole search -/

/-- The entries of the root, or of a leaf. -/
def Index.slots (ix : Index) : Option Nat → List DxEntry
  | none => ix.root.drEntries.deEntries
  | some blkno => ix.entriesAt blkno

/-- What the search is asked for: the name's entry with its block and its slot in the index, or that
    it is not there. -/
structure SearchOk (fs : Filesys) (hash : Name → Hinfo) (d : Directory) (name : Name) : Prop where
  absent : (∀ blk off, ¬d.Has fs name blk off) →
    dxDirSearch fs d.data name (hash name) d.index = some (.error .fileNotFound, d.index)
  present : ∀ blk off, d.Has fs name blk off → ∃ idx leaf,
    dxDirSearch fs d.data name (hash name) d.index = some (.ok ⟨blk, off, idx, leaf⟩, d.index) ∧
      (d.index.slots leaf)[idx]? = some ⟨hash name, blk⟩

theorem LooksIn.slots_eq (hl : LooksIn fs ix h l leaf) : ix.slots leaf = l.deEntries := by
  cases hl with
  | root inline => rfl
  | leaf tree c leaf mem at' cluster => rw [Index.slots, Index.entriesAt, at']

theorem dxDirSearch_select (hsel : selectList fs h ix = some (.ok (l, leaf), ix)) :
    dxDirSearch fs d.data name h ix =
      if l.deCount = 0 ∨ l.deNumUsed = 0 ∨ ix.root.drNumEntries = 0 then
        some (.error .dirCorrupted, ix)
      else some ((searchEntries fs d.data name h 0 l.deEntries).map
        fun y => ⟨y.1, y.2.1, y.2.2, leaf⟩, ix) := by
  rw [dxDirSearch, bind_ok hsel, bind_ok (get_run ix)]
  split
  · rfl
  · cases searchEntries fs d.data name h 0 l.deEntries <;> rfl

/-- When the search answers right: the hash is not hidden, and the name is there or its list is not
    empty; or it is hidden, the name is not there, and the leaf at the last hash is not empty. -/
structure Answers (fs : Filesys) (hash : Name → Hinfo) (d : Directory) (name : Name) : Prop where
  inline : d.index.root.inline = true → (∃ blk off, d.Has fs name blk off) ∨
    d.index.root.drEntries.deEntries ≠ []
  visible : d.index.root.inline = false → ¬Hidden d.index.recs (hash name).majorHash →
    (∃ blk off, d.Has fs name blk off) ∨ ∀ c, Selects fs d.index.recs (hash name).majorHash c →
      d.index.entriesAt (c.2 + dxDirHashIdx fs (hash name).minorHash) ≠ []
  hidden : d.index.root.inline = false → Hidden d.index.recs (hash name).majorHash →
    (∀ blk off, ¬d.Has fs name blk off) ∧ ∀ c ∈ clusters fs d.index.recs, c.1 = 4294967295 →
      d.index.entriesAt (c.2 + dxDirHashIdx fs (hash name).minorHash) ≠ []

theorem LooksIn.answers_iff (hd : d.Consistent fs hash)
    (hl : LooksIn fs d.index (hash name) l leaf) : Answers fs hash d name ↔
      (l.deEntries ≠ [] ∧ ∀ blk off, d.Has fs name blk off → ⟨hash name, blk⟩ ∈ l.deEntries) := by
  have hmem : ∀ blk off, d.Has fs name blk off → (⟨hash name, blk⟩ ∈ l.deEntries ↔
      (d.index.root.inline = false → ¬Hidden d.index.recs (hash name).majorHash)) := by
    intro blk off hx
    rw [hl.mem_iff hd.leaves, and_iff_right (hd.indexed name blk off hx)]
  cases hl with
  | root inline =>
    have hno : ¬d.index.root.inline = false := by rw [inline]; decide
    have hall : ∀ blk off, d.Has fs name blk off →
        ⟨hash name, blk⟩ ∈ d.index.root.drEntries.deEntries :=
      fun blk off hx => (hmem blk off hx).mpr fun h => absurd h hno
    refine ⟨fun ha => ⟨?_, hall⟩, fun h => ⟨fun _ => .inr h.1, fun h => absurd h hno,
      fun h => absurd h hno⟩⟩
    rcases ha.inline inline with ⟨blk, off, hx⟩ | hne
    · exact ne_nil_of_mem (hall blk off hx)
    · exact hne
  | leaf tree c leaf mem at' cluster =>
    have hno : ¬d.index.root.inline = true := by rw [tree]; decide
    have hat : d.index.entriesAt (c.2 + dxDirHashIdx fs (hash name).minorHash) =
        leaf.dlList.deEntries := by rw [Index.entriesAt, at']
    have hshape := (hd.leaves tree).tree.shape
    rcases cluster with ⟨hvis, hsel⟩ | ⟨hid, hlast⟩
    · have hall : ∀ blk off, d.Has fs name blk off → ⟨hash name, blk⟩ ∈ leaf.dlList.deEntries :=
        fun blk off hx => (hmem blk off hx).mpr fun _ => hvis
      refine ⟨fun ha => ⟨?_, hall⟩, fun h => ⟨fun h => absurd h hno, fun _ _ =>
        .inr fun c' hc' => ?_,
        fun _ hid => absurd hid hvis⟩⟩
      · rcases ha.visible tree hvis with ⟨blk, off, hx⟩ | hne
        · exact ne_nil_of_mem (hall blk off hx)
        · exact hat ▸ hne c hsel
      · obtain rfl := hc'.unique hshape hsel
        exact hat.symm ▸ h.1
    · have hout : ∀ blk off, d.Has fs name blk off → ⟨hash name, blk⟩ ∉ leaf.dlList.deEntries :=
        fun blk off hx he => (hmem blk off hx).mp he tree hid
      refine ⟨fun ha => ?_, fun h => ⟨fun h => absurd h hno, fun _ hvis => absurd hid hvis,
        fun _ _ => ⟨fun blk off hx => hout blk off hx (h.2 blk off hx), fun c' hc' hc1 => ?_⟩⟩⟩
      · obtain ⟨habs, hne⟩ := ha.hidden tree hid
        exact ⟨hat ▸ hne c mem hlast, fun blk off hx => absurd hx (habs blk off)⟩
      · obtain rfl := clusters_inj hshape.spaced hc' mem (hc1.trans hlast.symm)
        exact hat.symm ▸ h.1

/-- The search of a consistent directory is right about a name exactly if the list that its hash
    selects is the one it belongs into and is not empty, or at least the name is there; see
    `Answers`. -/
theorem dxDirSearch_correct_iff (fs : Filesys) (hash : Name → Hinfo) (d : Directory)
    (hd : d.Consistent fs hash) (name : Name) :
    SearchOk fs hash d name ↔ Answers fs hash d name := by
  obtain ⟨l, leaf, hsel, hl, hpos⟩ := selectList_looksIn hd (hd.hashed name)
  rw [hl.answers_iff hd]
  have hrun := @dxDirSearch_select l leaf fs name d _ _ hsel
  by_cases hne : l.deEntries = []
  · -- the list is empty: called corrupt
    have hused : l.deNumUsed = 0 := by rw [EntryList.deNumUsed, hne, length_nil]
    rw [if_pos (.inr (.inl hused))] at hrun
    refine ⟨fun hok => ?_, fun h => absurd hne h.1⟩
    by_cases hhas : ∃ blk off, d.Has fs name blk off
    · obtain ⟨blk, off, hx⟩ := hhas
      obtain ⟨_, _, hfound, -⟩ := hok.present blk off hx
      rw [hrun] at hfound
      cases hfound
    · have := hok.absent fun blk off hx => hhas ⟨blk, off, hx⟩
      rw [hrun] at this
      cases this
  · have hused : 0 < l.deNumUsed := length_pos_of_ne_nil hne
    obtain ⟨e, he⟩ := exists_mem_of_ne_nil _ hne
    have hlen := length_pos_of_mem (hl.mem_entries he)
    have hcount := hd.counted
    rw [if_neg (by omega)] at hrun
    have hlead : ∀ e ∈ l.deEntries, e.dxDirentBlk ∈ d.blocks :=
      fun e he => hd.leads e (hl.mem_entries he)
    rcases @searchEntries_spec fs name d (hash name) hd.tiled l.deEntries 0 hlead with
      ⟨k, blk, off, hfound, hk, hx⟩ | ⟨herr, hall⟩
    · rw [hfound] at hrun
      refine ⟨fun _ => ⟨hne, ?_⟩, fun _ => ⟨fun hno => absurd hx (hno blk off), ?_⟩⟩
      · intro blk' off' hx'
        obtain ⟨rfl, rfl⟩ := hd.unique name blk off blk' off' hx hx'
        exact mem_of_getElem? hk
      · intro blk' off' hx'
        obtain ⟨rfl, rfl⟩ := hd.unique name blk off blk' off' hx hx'
        exact ⟨0 + k, leaf, hrun, by rw [hl.slots_eq, Nat.zero_add, hk]⟩
    · rw [herr] at hrun
      refine ⟨fun hok => ⟨hne, fun blk off hx => ?_⟩, fun h =>
        ⟨fun _ => hrun, fun blk off hx => ?_⟩⟩
      · obtain ⟨_, _, hfound, -⟩ := hok.present blk off hx
        rw [hrun] at hfound
        cases hfound
      · exact absurd hx (hall blk off (h.2 blk off hx))

/-! ### A directory with two names -/

def dirFs : Filesys := .smallBlocks 1000

/-- One entry over the whole block: inode 5, with a name of one letter. -/
def oneNameBuf (letter : UInt8) : Buf := fun x =>
  if x = 0 then 5 else if x = 9 then 2 else if x = 10 then 1 else if x = 12 then letter else 0

/-- Names of one length have one hash, and names of different lengths fall into different leaves. -/
def lengthHash (name : Name) : Hinfo := ⟨0, name.length⟩

/-- The names `a` and `b`. The index is a tree with one extent block; of its leaves, at block 64,
    all but the second one are empty. -/
def twoNameDir : Directory where
  blocks := [100, 101]
  data := fun blk => if blk = 100 then some (oneNameBuf 97) else
    if blk = 101 then some (oneNameBuf 98) else none
  index :=
    { root := ⟨false, 2, ⟨0, []⟩⟩
      leaves := fun blk => if 64 ≤ blk ∧ blk < 72 then
        some ⟨blk, ⟨29, if blk = 65 then [⟨⟨0, 1⟩, 100⟩, ⟨⟨0, 1⟩, 101⟩] else []⟩⟩ else none
      st := smallSt [⟨0, 10, 0, listOf 0 28 [⟨0, 1, 0, 0, 64⟩]⟩]
        (smallInode 10 (listOf 1 19 [⟨0, 1, 0, 0, 10⟩])) [] }

theorem twoName_data {blk : Nat} (h : blk ∈ twoNameDir.blocks) : ∃ letter,
    twoNameDir.data blk = some (oneNameBuf letter) ∧ (letter = 97 ∧ blk = 100 ∨
      letter = 98 ∧ blk = 101) := by
  rcases mem_cons.mp h with rfl | h
  · exact ⟨97, rfl, .inl ⟨rfl, rfl⟩⟩
  · obtain rfl := mem_singleton.mp h
    exact ⟨98, rfl, .inr ⟨rfl, rfl⟩⟩

theorem twoName_has {blk : Nat} (h : twoNameDir.Has dirFs name blk off) :
    (name = [97] ∧ blk = 100 ∨ name = [98] ∧ blk = 101) ∧ off = 0 := by
  obtain ⟨hblk, b, hb, hc, hlt, _, hname⟩ := h
  obtain ⟨letter, hdata, hletter⟩ := twoName_data hblk
  rw [hb] at hdata
  cases hdata
  obtain rfl : off = 0 := by
    rcases (onChain_iff.mp hc).head with h0 | hc
    · exact h0
    · have hlen : recLen (oneNameBuf letter) 0 = 512 := by
        rcases hletter with ⟨rfl, -⟩ | ⟨rfl, -⟩ <;> decide
      have hle := hc.le
      have hlt : off < 512 := hlt
      omega
  rw [← hname]
  refine ⟨?_, rfl⟩
  rcases hletter with ⟨rfl, rfl⟩ | ⟨rfl, rfl⟩
  · exact .inl ⟨by decide, rfl⟩
  · exact .inr ⟨by decide, rfl⟩

theorem twoName_clusters : clusters dirFs twoNameDir.index.recs = [(0, 64)] := by decide

theorem twoName_tree : TreeOk dirFs twoNameDir.index where
  depth := by decide
  tree := by
    refine ⟨_, rfl, by decide, rfl, by decide, ?_, by decide, rfl, by decide, rfl, .inl rfl,
      by decide, by decide, ?_, nofun⟩
    all_goals
      rintro r rs heq
      cases heq
      exact ⟨le_refl _, fun _ => rfl⟩
  shape := ⟨by decide, by decide, by decide⟩

theorem twoName_leaves : LeavesOk dirFs twoNameDir.index where
  tree := twoName_tree
  leaf := by
    rw [twoName_clusters]
    intro c hc i hi
    rw [mem_singleton.mp hc]
    have hi : i < 8 := hi
    refine ⟨_, if_pos (by omega), ?_, Nat.succ_pos 28⟩
    show (if 64 + i = 65 then _ else _ : List DxEntry).length ≤ 29
    split <;> decide
  placed := by
    rw [twoName_clusters]
    intro c hc i hi e he
    rw [mem_singleton.mp hc] at he ⊢
    have hi : i < 8 := hi
    have hleaf : twoNameDir.index.leaves (64 + i) = some ⟨64 + i, ⟨29, if 64 + i = 65 then
        [⟨⟨0, 1⟩, 100⟩, ⟨⟨0, 1⟩, 101⟩] else []⟩⟩ := if_pos (by omega)
    rw [Index.entriesAt, hleaf] at he
    dsimp only at he
    split at he
    · next h1 =>
      obtain rfl : i = 1 := by omega
      have hzero : e.dxHash = ⟨0, 1⟩ := by
        have hall : ∀ e ∈ [(⟨⟨0, 1⟩, 100⟩ : DxEntry), ⟨⟨0, 1⟩, 101⟩], e.dxHash = ⟨0, 1⟩ := by decide
        exact hall e he
      rw [DxEntry.minor, DxEntry.major, hzero]
      refine ⟨by decide, ⟨by decide, le_refl _, ?_⟩, by decide⟩
      rw [twoName_clusters]
      intro c' hc' _
      rw [mem_singleton.mp hc']
    · cases he

theorem twoName_consistent : twoNameDir.Consistent dirFs lengthHash where
  hashed := fun _ => show 0 < 4294967296 by decide
  tiled := by
    intro blk hblk
    obtain ⟨letter, hdata, hletter⟩ := twoName_data hblk
    refine ⟨oneNameBuf letter, hdata, ?_⟩
    rcases hletter with ⟨rfl, -⟩ | ⟨rfl, -⟩ <;>
      exact .cons 0 ⟨by decide, by decide, by decide⟩ .nil
  unique := by
    intro name blk off blk' off' h h'
    obtain ⟨hcase, rfl⟩ := twoName_has h
    obtain ⟨hcase', rfl⟩ := twoName_has h'
    refine ⟨?_, rfl⟩
    rcases hcase with ⟨rfl, rfl⟩ | ⟨rfl, rfl⟩ <;> rcases hcase' with ⟨hn, rfl⟩ | ⟨hn, rfl⟩ <;>
      first | rfl | exact absurd hn (by decide)
  leads := by decide
  indexed := by
    intro name blk off h
    rcases (twoName_has h).1 with ⟨rfl, rfl⟩ | ⟨rfl, rfl⟩ <;> decide
  counted := by decide
  inline := nofun
  leaves := fun _ => twoName_leaves

/-- A name that is not there, and whose leaf is empty: the directory is called corrupt. -/
theorem dxDirSearch_empty_leaf : twoNameDir.Consistent dirFs lengthHash ∧
    (∀ blk off, ¬twoNameDir.Has dirFs [99, 99] blk off) ∧
    dxDirSearch dirFs twoNameDir.data [99, 99] (lengthHash [99, 99]) twoNameDir.index =
      some (.error .dirCorrupted, twoNameDir.index) ∧
    ¬SearchOk dirFs lengthHash twoNameDir [99, 99] := by
  have habsent : ∀ blk off, ¬twoNameDir.Has dirFs [99, 99] blk off := by
    intro blk off h
    rcases (twoName_has h).1 with ⟨hn, -⟩ | ⟨hn, -⟩ <;> exact absurd hn (by decide)
  have hrun : dxDirSearch dirFs twoNameDir.data [99, 99] (lengthHash [99, 99]) twoNameDir.index =
      some (.error .dirCorrupted, twoNameDir.index) := by rfl
  refine ⟨twoName_consistent, habsent, hrun, ?_⟩
  intro hok
  have := hok.absent habsent
  rw [hrun] at this
  cases this

/-- The second of the two names is found behind the first one. -/
theorem dxDirSearch_second_name : SearchOk dirFs lengthHash twoNameDir [98] := by
  refine (dxDirSearch_correct_iff dirFs lengthHash twoNameDir twoName_consistent [98]).mpr
    ⟨nofun, fun _ _ => .inl ⟨101, 0, by decide, oneNameBuf 98, rfl, .start, by decide, by decide,
      by decide⟩, ?_⟩
  -- no record of this index wraps around
  rintro - ⟨-, r, hr, hw⟩
  obtain rfl : (⟨0, 1, 0, 0, 64⟩ : ExtentRec) = r := Option.some.inj hr
  exact absurd hw (by decide)

end Ocfs2Tools.DxDir
