import Mathlib

/-!
# The path names of pass 1c

`o2fsck_pass1c` looks for a path of every inode that shares clusters with another. It takes
directories from the head of a list, pushes the directories they name back to its head, and stops
when the list is empty or no inode is left without a path. It does not note where it has been, and
it runs before the directories are checked.
-/

namespace Ocfs2Tools.Pass1c

open List Function Relation

abbrev Path : Type := List UInt8

/-- What the callback reads of a `struct ocfs2_dir_entry`. -/
structure Dirent where
  inode : Nat
  isDir : Bool
  name : Path

/-- The entries that `ocfs2_dir_iterate` gives for each inode, without the dots. An inode that
    cannot be read as a directory has none. -/
structure Dirs where
  entries : Nat → List Dirent
  fsBlocks : Nat
  entries_eq_nil : ∀ d, fsBlocks ≤ d → entries d = []

/-- `struct dir_to_scan`. -/
structure DirToScan where
  tsIno : Nat
  tsPath : Path

/-- `struct dir_scan_context`, with the paths found so far. -/
structure DirScan where
  dsInodesLeft : Nat
  diPath : Nat → Option Path
  dsPaths : List DirToScan

def slash : UInt8 := 47

/-- `de_to_path`. -/
def deToPath (cwd name : Path) : Path :=
  if cwd.getLast? = some slash ∨ name.head? = some slash then cwd ++ name else cwd ++ slash :: name

/-- `push_dir`. -/
def pushDir (cwd : Path) (de : Dirent) (s : DirScan) : DirScan :=
  { s with dsPaths := ⟨de.inode, deToPath cwd de.name⟩ :: s.dsPaths }

variable (dups : Finset Nat) (stale : DirScan → Nat) (g : Dirs)

/-- `name_inode`, where `dups` are the inodes that share clusters. -/
def nameInode (cwd : Path) (de : Dirent) (s : DirScan) : DirScan :=
  if de.inode ∉ dups ∨ (s.diPath de.inode).isSome then s
  else { s with dsInodesLeft := s.dsInodesLeft - 1
                diPath := update s.diPath de.inode (some (deToPath cwd de.name)) }

/-- `walk_iterate`, which stops the iteration when no inode is left. -/
def walkIterate (cwd : Path) (de : Dirent) (s : DirScan) : DirScan :=
  if de.isDir then pushDir cwd de s else nameInode dups cwd de s

/-- `ocfs2_dir_iterate` over the entries of a directory. -/
def dirIterate (dups : Finset Nat) (cwd : Path) : List Dirent → DirScan → DirScan
  | [], s => s
  | de :: rest, s =>
    let s' := walkIterate dups cwd de s
    if s'.dsInodesLeft = 0 then s' else dirIterate dups cwd rest s'

/-- `walk_cwd`. The entry it names the directory by is never given an inode, so it has the one
    that `stale` left in its memory. -/
def walkCwd (ts : DirToScan)
    (s : DirScan) : DirScan :=
  dirIterate dups ts.tsPath (g.entries ts.tsIno) (nameInode dups ts.tsPath
    ⟨stale s, true, ts.tsPath.take (ts.tsPath.length % 2 ^ 8)⟩ s)

/-- The loop of `o2fsck_pass1c`, or `none` if it does not end within the turns. -/
def walkPaths (dups : Finset Nat) (stale : DirScan → Nat) (g : Dirs) :
    Nat → DirScan → Option DirScan
  | 0, _ => none
  | turns + 1, s =>
    if s.dsInodesLeft = 0 then some s
    else
      match s.dsPaths with
      | [] => some s
      | ts :: rest => walkPaths dups stale g turns
          (walkCwd dups stale g ts { s with dsPaths := rest })

/-- `o2fsck_pass1c`. -/
def pass1c (root sysdir turns : Nat) :
    Option DirScan :=
  walkPaths dups stale g turns (pushDir [] ⟨sysdir, true, [slash, slash]⟩
    (pushDir [] ⟨root, true, [slash]⟩ ⟨dups.card, fun _ => none, []⟩))

/-- Directory `a` has an entry for directory `b`. -/
def Dirs.Names (g : Dirs) (a b : Nat) : Prop := ∃ de ∈ g.entries a, de.isDir = true ∧ de.inode = b

/-- No directory that can be reached from `d` can be reached from itself. -/
def Dirs.Acyclic (g : Dirs) (d : Nat) : Prop :=
  ∀ a, ReflTransGen g.Names d a → ¬TransGen g.Names a a

variable {dups stale g} {cwd : Path} {d x : Nat}

/-! ### Directories without a cycle -/

theorem Dirs.lt_of_mem {de : Dirent} (h : de ∈ g.entries d) : d < g.fsBlocks := by
  by_contra hge
  rw [g.entries_eq_nil d (by omega)] at h
  exact absurd h not_mem_nil

theorem Dirs.Acyclic.of_names (h : g.Acyclic d) (hx : g.Names d x) : g.Acyclic x :=
  fun a ha => h a (.head hx ha)

theorem Dirs.Acyclic.acc (h : g.Acyclic d) : Acc (fun b a => g.Names a b) d := by
  let Below (b a : Fin g.fsBlocks) : Prop := g.Acyclic a ∧ TransGen g.Names a b
  have : IsTrans _ Below := ⟨fun _ _ _ h h' => ⟨h'.1, h'.2.trans h.2⟩⟩
  have : Std.Irrefl Below := ⟨fun a h => h.1 a .refl h.2⟩
  have hwf := Finite.wellFounded_of_trans_of_irrefl Below
  have hdir : ∀ a : Fin g.fsBlocks, g.Acyclic a → Acc (fun b a => g.Names a b) a.1 := by
    intro a
    induction a using hwf.induction with
    | _ a ih =>
      intro ha
      refine ⟨_, fun b hb => ?_⟩
      by_cases hlt : b < g.fsBlocks
      · exact ih ⟨b, hlt⟩ ⟨ha, .single hb⟩ (ha.of_names hb)
      · exact ⟨_, fun _ ⟨_, hde, _⟩ => absurd (g.lt_of_mem hde) hlt⟩
  by_cases hlt : d < g.fsBlocks
  · exact hdir ⟨d, hlt⟩ h
  · exact ⟨_, fun _ ⟨_, hde, _⟩ => absurd (g.lt_of_mem hde) hlt⟩

/-! ### Runs that end -/

def scans (cwd : Path) (es : List Dirent) : List DirToScan :=
  ((es.filter (·.isDir)).map fun de => ⟨de.inode, deToPath cwd de.name⟩).reverse

theorem nameInode_paths (de : Dirent) (s : DirScan) :
    (nameInode dups cwd de s).dsPaths = s.dsPaths := by
  unfold nameInode
  split <;> rfl

theorem walkIterate_paths (de : Dirent) (s : DirScan) :
    (walkIterate dups cwd de s).dsPaths = scans cwd [de] ++ s.dsPaths := by
  unfold walkIterate
  split <;> rename_i h
  · simp [scans, h, pushDir]
  · simp [scans, h, nameInode_paths]

theorem walkIterate_left {de : Dirent} (h : de.inode ∉ dups) (s : DirScan) :
    (walkIterate dups cwd de s).dsInodesLeft = s.dsInodesLeft := by
  unfold walkIterate
  split
  · rfl
  · rw [nameInode, if_pos (.inl h)]

theorem dirIterate_paths : ∀ es s, ∃ seen, seen ⊆ es ∧
    (dirIterate dups cwd es s).dsPaths = scans cwd seen ++ s.dsPaths ∧
      ((∀ de ∈ es, de.inode ∉ dups) → s.dsInodesLeft ≠ 0 →
        seen = es ∧ (dirIterate dups cwd es s).dsInodesLeft = s.dsInodesLeft)
  | [], _ => ⟨[], nofun, rfl, fun _ _ => ⟨rfl, rfl⟩⟩
  | de :: es, s => by
    have hone := @walkIterate_paths dups cwd de s
    rw [dirIterate]
    split
    · refine ⟨[de], by simp, hone, fun hnot hleft => ?_⟩
      have := @walkIterate_left dups cwd de (hnot de mem_cons_self) s
      omega
    · obtain ⟨seen, hsub, heq, hall⟩ := dirIterate_paths es (walkIterate dups cwd de s)
      refine ⟨de :: seen, cons_subset_cons de hsub, ?_, fun hnot hleft => ?_⟩
      · rw [heq, hone, ← append_assoc, scans, scans, ← reverse_append, ← map_append,
          ← filter_append]
        rfl
      · obtain ⟨rfl, h⟩ := hall (fun x hx => hnot x (mem_cons_of_mem _ hx)) ‹_›
        exact ⟨rfl, h.trans (walkIterate_left (hnot de mem_cons_self) s)⟩

/-- The loop ends from every state with these directories left. -/
def Ends (dups : Finset Nat) (stale : DirScan → Nat) (g : Dirs) (paths : List DirToScan) : Prop :=
  ∀ s : DirScan, s.dsPaths = paths → ∃ turns s', walkPaths dups stale g turns s = some s'

theorem ends_nil : Ends dups stale g [] := by
  intro s hs
  refine ⟨1, s, ?_⟩
  rw [walkPaths, hs, ite_self]

theorem Ends.step {ts : DirToScan} {rest : List DirToScan}
    (h : ∀ pushed : List DirToScan, (∀ p ∈ pushed, g.Names ts.tsIno p.tsIno) →
      Ends dups stale g (pushed ++ rest)) : Ends dups stale g (ts :: rest) := by
  intro s hs
  by_cases hleft : s.dsInodesLeft = 0
  · exact ⟨1, s, by rw [walkPaths, if_pos hleft]⟩
  · obtain ⟨seen, hsub, heq, -⟩ := @dirIterate_paths dups ts.tsPath (g.entries ts.tsIno)
      (nameInode dups ts.tsPath _ { s with dsPaths := rest })
    rw [nameInode_paths] at heq
    have hnames : ∀ p ∈ scans ts.tsPath seen, g.Names ts.tsIno p.tsIno := by
      intro p hp
      obtain ⟨de, hde, rfl⟩ := mem_map.mp (mem_reverse.mp hp)
      exact ⟨de, hsub (mem_of_mem_filter hde), of_mem_filter hde, rfl⟩
    obtain ⟨turns, s', hrun⟩ := h _ hnames _ heq
    exact ⟨turns + 1, s', by rw [walkPaths, if_neg hleft, hs]; exact hrun⟩

theorem Ends.cons (hacc : Acc (fun b a => g.Names a b) d) : ∀ {path rest},
    Ends dups stale g rest → Ends dups stale g (⟨d, path⟩ :: rest) := by
  induction hacc with
  | intro d _ ih =>
    intro path rest hrest
    refine .step fun pushed hnames => ?_
    induction pushed with
    | nil => exact hrest
    | cons p pushed ihp =>
      exact ih p.tsIno (hnames p mem_cons_self) (ihp fun q hq => hnames q (mem_cons_of_mem _ hq))

/-! ### Runs that do not end -/

theorem walkPaths_cycle (hstale : ∀ s, stale s ∉ dups)
    (hnot : ∀ a, ∀ de ∈ g.entries a, de.inode ∉ dups) (hd : TransGen g.Names d d) :
    ∀ turns s, s.dsInodesLeft ≠ 0 →
      (∃ ts ∈ s.dsPaths, ReflTransGen g.Names ts.tsIno d) → walkPaths dups stale g turns s = none
  | 0, _, _, _ => rfl
  | turns + 1, s, hleft, ⟨ts, hts, hreach⟩ => by
    rw [walkPaths, if_neg hleft]
    obtain ⟨top, rest, hs⟩ := exists_cons_of_ne_nil (ne_nil_of_mem hts)
    rw [hs] at hts ⊢
    obtain ⟨seen, -, heq, hall⟩ := @dirIterate_paths dups top.tsPath (g.entries top.tsIno)
      { s with dsPaths := rest }
    obtain ⟨rfl, hsame⟩ := hall (hnot top.tsIno) hleft
    dsimp only
    rw [walkCwd, nameInode, if_pos (.inl (hstale _))]
    refine walkPaths_cycle hstale hnot hd turns _ (hsame.trans_ne hleft) ?_
    rw [heq]
    rcases mem_cons.mp hts with rfl | hts
    · -- the next directory on the way is pushed
      obtain ⟨c, ⟨de, hde, hdir, rfl⟩, hc⟩ := TransGen.head'_iff.mp (TransGen.trans_right hreach hd)
      exact ⟨_, mem_append_left _ (mem_reverse.mpr
        (mem_map_of_mem (mem_filter.mpr ⟨hde, hdir⟩))), hc⟩
    · exact ⟨ts, mem_append_right _ hts, hreach⟩

theorem Dirs.exists_unnamed (g : Dirs) (old : Nat) :
    ∃ x, x ≠ old ∧ ∀ a, ∀ de ∈ g.entries a, de.inode ≠ x := by
  let all := (range g.fsBlocks).flatMap fun a => (g.entries a).map Dirent.inode
  obtain ⟨x, hx⟩ := Infinite.exists_notMem_finset (insert old all.toFinset)
  rw [Finset.mem_insert, not_or, mem_toFinset] at hx
  refine ⟨x, hx.1, fun a de hde heq => hx.2 ?_⟩
  exact mem_flatMap.mpr ⟨a, mem_range.mpr (g.lt_of_mem hde), mem_map.mpr ⟨de, hde, heq⟩⟩

/-- **Pass 1c ends for every set of inodes without a path exactly if** no directory below the root
    or the system directory can be reached from itself. -/
theorem pass1c_ends_iff (g : Dirs) (root sysdir : Nat) : (∀ dups stale,
      ∃ turns s, pass1c dups stale g root sysdir turns = some s) ↔
      g.Acyclic root ∧ g.Acyclic sysdir := by
  constructor
  · intro h
    obtain ⟨x, hx, hnot⟩ := g.exists_unnamed 0
    obtain ⟨turns, s, hrun⟩ := h {x} fun _ => 0
    -- with one inode that no entry names, a cycle is never left
    have hend : ∀ d, TransGen g.Names d d →
        ¬(ReflTransGen g.Names root d ∨ ReflTransGen g.Names sysdir d) := by
      intro d hd hreach
      rw [pass1c, walkPaths_cycle (fun _ => by simpa using hx.symm)
        (fun a de hde => by simpa using hnot a de hde) hd turns _ (by simp [pushDir])] at hrun
      · cases hrun
      · rcases hreach with h | h
        · exact ⟨_, mem_cons_of_mem _ mem_cons_self, h⟩
        · exact ⟨_, mem_cons_self, h⟩
    exact ⟨fun a ha hcycle => hend a hcycle (.inl ha), fun a ha hcycle => hend a hcycle (.inr ha)⟩
  · rintro ⟨hroot, hsys⟩ dups stale
    exact (ends_nil.cons hroot.acc).cons hsys.acc (pushDir [] ⟨sysdir, true, [slash, slash]⟩
      (pushDir [] ⟨root, true, [slash]⟩ ⟨dups.card, fun _ => none, []⟩)) rfl

/-- A root directory with an entry for itself, beside the dots. -/
def rootInRoot : Dirs := ⟨fun d => if d = 5 then [⟨5, true, [97]⟩] else [], 6, by grind⟩

/-- One inode that no entry names is looked for without end. -/
theorem pass1c_runs_on : ¬∃ turns s, pass1c {9} (fun _ => 0) rootInRoot 5 4 turns = some s := by
  rintro ⟨turns, s, hrun⟩
  have hnames : rootInRoot.Names 5 5 := ⟨_, mem_singleton.mpr rfl, rfl, rfl⟩
  refine Option.some_ne_none s (hrun.symm.trans (walkPaths_cycle (fun _ => by decide)
    (fun a de hde => ?_) (.single hnames) turns _ (by decide)
    ⟨_, mem_cons_of_mem _ mem_cons_self, .refl⟩))
  dsimp only [rootInRoot] at hde
  split at hde
  · rw [mem_singleton.mp hde]
    decide
  · exact absurd hde not_mem_nil

end Ocfs2Tools.Pass1c
