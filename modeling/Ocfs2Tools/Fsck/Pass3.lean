import Ocfs2Tools.Lib.Chain
import Ocfs2Tools.Device

/-!
# fsck pass 3: directory connectivity

Pass 3 walks from every recorded directory along `dp_dirent`, the directory whose
entry names it, and moves a directory to lost+found when its walk finds no parent
or runs into itself. A walk marks the directories it passes as connected before it
knows that they are, and stamps the *parents* it moves to with the number of the
walk. The directory a walk starts from is not stamped.

The directories are kept in a red-black tree keyed by inode number; it is modelled
by the list of its keys in order and a function to the nodes. Messages are left
out. What the disk and the user answer is in `Env`.
-/

namespace Ocfs2Tools.Pass3

/-- `o2fsck_dir_parent`, without its key `dp_ino`. -/
structure DirParent where
  dotDot : Nat
  dirent : Nat
  loopNo : Nat
  connected : Bool
  inOrphanDir : Bool
deriving DecidableEq, Repr

/-- The part of `o2fsck_state` pass 3 works on. `loopNo` is the static counter of
    walks, `icountRefs` the counted references, `dotDotEntry` the inode number in
    the '..' entry of a directory on disk (`none`: it cannot be found). -/
structure Ost where
  inos : List Nat
  node : Nat → DirParent
  rootBlkno : Nat
  sysdirBlkno : Nat
  lostfoundIno : Nat
  loopNo : Nat
  icountRefs : Nat → Int
  dotDotEntry : Nat → Option Nat

/-- The questions of pass 3. -/
inductive Problem where
  | rootDirMissing
  | lostfoundMissing
  | dirNotConnected
  | dirDotdot
deriving DecidableEq, Repr

/-- What the user answers and what the file system functions return: whether the
    root inode is allocated, the lost+found entry of the root directory, the inodes
    made for a missing root or lost+found (`none`: an error on the way), whether the
    new super block is written, the type bits of an inode (`none`: it cannot be
    read; `some true`: a directory), and whether linking it to lost+found fails. -/
structure Env where
  prompt : Problem → Nat → Bool
  rootAllocated : Bool
  lookupLostfound : Option Nat
  newRoot : Option Nat
  superWritten : Bool
  newLostfound : Option Nat
  isDir : Nat → Option Bool
  linkFails : Nat → Bool

/-! ### The recorded directories -/

variable (s : Ost) (ino : Nat)

/-- `o2fsck_dir_parent_lookup`. -/
def Ost.lookup : Option DirParent :=
  if ino ∈ s.inos then some (s.node ino) else none

def Ost.alter (f : DirParent → DirParent) : Ost :=
  { s with node := fun d => if d = ino then f (s.node d) else s.node d }

/-- `o2fsck_icount_delta` on `ost_icount_refs`. -/
def Ost.icountDelta (delta : Int) : Ost :=
  { s with icountRefs := fun d => if d = ino then s.icountRefs d + delta else s.icountRefs d }

/-- `o2fsck_icount_set` on `ost_icount_refs`. -/
def Ost.icountSet (count : Int) : Ost :=
  { s with icountRefs := fun d => if d = ino then count else s.icountRefs d }

/-- `o2fsck_add_dir_parent`; `none` if the directory is recorded already. -/
def Ost.addDirParent (s : Ost) (ino dotDot dirent : Nat) (inOrphanDir : Bool) : Option Ost :=
  if ino ∈ s.inos then none
  else some { s with
    inos := s.inos.orderedInsert (· ≤ ·) ino
    node := fun d => if d = ino then
      { dotDot := dotDot, dirent := dirent, loopNo := 0, connected := false,
        inOrphanDir := inOrphanDir } else s.node d }

/-! ### Root and lost+found -/

/-- `check_root`. -/
def checkRoot (env : Env) (s : Ost) : Ost :=
  if env.rootAllocated || !env.prompt .rootDirMissing s.rootBlkno then s
  else
    match env.newRoot with
    | none => s
    | some blkno =>
      let s := s.icountSet blkno 1
      match s.addDirParent blkno s.rootBlkno s.rootBlkno false with
      | none => s
      | some s => if env.superWritten then { s with rootBlkno := blkno } else s

/-- `check_lostfound`. -/
def checkLostfound (env : Env) (s : Ost) : Ost :=
  match env.lookupLostfound with
  | some ino => { s with lostfoundIno := ino }
  | none =>
    if env.prompt .lostfoundMissing 0 then
      match env.newLostfound with
      | none => s
      | some blkno =>
        let s := s.icountSet blkno 2
        match s.addDirParent blkno s.rootBlkno s.rootBlkno false with
        | none => s
        | some s => { s with lostfoundIno := blkno }
    else s

/-! ### Connecting a directory -/

/-- `fix_dot_dot`. -/
def fixDotDot (s : Ost) (dir : Nat) : Ost :=
  match s.dotDotEntry dir with
  | none => s
  | some old =>
    let parent := (s.node dir).dirent
    let s := if old ≠ 0 then s.icountDelta old (-1) else s
    let s := s.icountDelta parent 1
    let s := { s with dotDotEntry := fun d => if d = dir then some parent else s.dotDotEntry d }
    s.alter dir fun dp => { dp with dotDot := dp.dirent }

/-- The lost+found inode `o2fsck_reconnect_file` uses. -/
def Ost.lostfound (env : Env) (s : Ost) : Option Nat :=
  if s.lostfoundIno = 0 then env.lookupLostfound else some s.lostfoundIno

/-- `o2fsck_reconnect_file`. -/
def reconnectFile (env : Env) (inode : Nat) (s : Ost) : Ost :=
  match s.lostfound env with
  | none => s
  | some lostfound =>
    let s := { s with lostfoundIno := lostfound }
    match env.isDir inode with
    | none => s
    | some isDir =>
      if env.linkFails inode then s
      else
        let s := s.icountDelta inode 1
        if isDir && (s.lookup inode).isSome then
          s.alter inode fun dp => { dp with dirent := lostfound }
        else s

def Ost.mark : Ost := s.alter ino fun dp => { dp with connected := true }

def Ost.stamp : Ost := s.alter ino fun dp => { dp with loopNo := s.loopNo }

/-- The walk of `connect_directory`. It marks one directory more in each turn, so
    the fuel counts the directories not marked yet. -/
def connectLoop (env : Env) : Nat → Nat → Prog Ost Errcode Unit
  | 0, _ => Prog.abort
  | fuel + 1, dp => fun s =>
    if (s.node dp).connected then some (.ok (), s)
    else
      let graft :=
        if env.prompt .dirNotConnected dp then reconnectFile env dp (s.mark dp) else s.mark dp
      if (s.node dp).dirent = 0 then some (.ok (), graft)
      else
        match s.lookup (s.node dp).dirent with
        | none => some (.error .internalFailure, s.mark dp)
        | some par =>
          -- move on to the parent unless this walk has been there
          if par.loopNo ≠ s.loopNo then
            connectLoop env fuel (s.node dp).dirent ((s.mark dp).stamp (s.node dp).dirent)
          else some (.ok (), graft)

/-- The '..' entry of an orphan directory counts as if it named the orphan dir. -/
def orphanDotDot (dir : Nat) (s : Ost) : Ost :=
  if (s.node dir).inOrphanDir then
    let s := if (s.node dir).dotDot ≠ 0 then s.icountDelta (s.node dir).dotDot (-1) else s
    let s := s.alter dir fun dp => { dp with dotDot := dp.dirent }
    s.icountDelta (s.node dir).dotDot 1
  else s

/-- The end of `connect_directory`: make '..' agree with the entry found. -/
def checkDotDot (env : Env) (dir : Nat) (s : Ost) : Ost :=
  let s := orphanDotDot dir s
  if (s.node dir).dirent ≠ (s.node dir).dotDot && env.prompt .dirDotdot dir then fixDotDot s dir
  else s

/-- `connect_directory`. -/
def connectDirectory (env : Env) (dir : Nat) : Prog Ost Errcode Unit := do
  Prog.modify fun s => { s with loopNo := s.loopNo + 1 }
  let s ← Prog.get
  connectLoop env (s.inos.length + 1) dir
  Prog.modify (checkDotDot env dir)

/-- The loop of `o2fsck_pass3` over the recorded directories. -/
def connectAll (env : Env) : List Nat → Prog Ost Errcode Unit
  | [] => pure ()
  | dir :: dirs => do
    connectDirectory env dir
    connectAll env dirs

def markConnected (ino : Nat) : Prog Ost Errcode Unit := fun s =>
  match s.lookup ino with
  | none => some (.error .internalFailure, s)
  | some _ => some (.ok (), s.mark ino)

/-- `o2fsck_pass3`. -/
def o2fsckPass3 (env : Env) : Prog Ost Errcode Unit := do
  Prog.modify (checkRoot env)
  Prog.modify (checkLostfound env)
  let s ← Prog.get
  markConnected s.rootBlkno
  markConnected s.sysdirBlkno
  connectAll env s.inos

end Ocfs2Tools.Pass3
