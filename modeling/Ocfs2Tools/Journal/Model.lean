import Ocfs2Tools.Format
import Ocfs2Tools.Lib.Prog

/-!
# Journal replay: `fsck.ocfs2/journal.c`

`fsck` walks the log of a journal twice. The first walk finds the sequence number
after the last commit block and collects the revoke records, the second one copies the
logged blocks to their places. All that the code looks at in a journal block are
big-endian 32-bit words, so a block is the function of its words, and offsets within it
are in words. The red-black tree of revoke entries is a function from block numbers.
-/

namespace Ocfs2Tools.Journal

/-- A block as its big-endian words. -/
abbrev Block : Type := Nat → Nat

def jbd2MagicNumber : Nat := 0xc03b3998
def jbd2DescriptorBlock : Nat := 1
def jbd2CommitBlock : Nat := 2
def jbd2RevokeBlock : Nat := 5
def jbd2FlagEscape : Nat := 1
def jbd2FlagSameUuid : Nat := 2
def jbd2FlagLastTag : Nat := 8

/-- The part of `journal_superblock_t` the walks read; `incompat64` is the feature
    `JBD2_FEATURE_INCOMPAT_64BIT`. -/
structure Jsb where
  sBlocksize : Nat
  sMaxlen : Nat
  sFirst : Nat
  sSequence : Nat
  sStart : Nat
  incompat64 : Bool

/-- What does not change: the file system, the journal's super block, and the extent map
    of the journal's inode. -/
structure Env where
  fs : Filesys
  jsb : Jsb
  phys : Nat → Nat

inductive JournalError where
  | duplicateBlock
  | badJournalTag
deriving DecidableEq, Repr

/-- The device, and of `struct journal_info` the bitmap `ji_used_blocks`, the revoke
    tree and `ji_final_seq`. -/
structure St where
  dev : Nat → Block
  used : Nat → Bool
  revoke : Nat → Option Nat
  finalSeq : Nat

abbrev J (α : Type) : Type := Prog St JournalError α

/-! ### Sequence numbers and revoke entries -/

/-- `seq_gt`: the difference as an `int32_t` is positive. -/
def seqGt (x y : Nat) : Bool := 0 < ((x : Int) - y).bmod (2 ^ 32)

def seqGeq (x y : Nat) : Bool := 0 ≤ ((x : Int) - y).bmod (2 ^ 32)

def revokeInsert (revoke : Nat → Option Nat) (block seq : Nat) : Nat → Option Nat :=
  fun b =>
    if b = block then
      match revoke b with
      | none => some seq
      | some r => if seqGt seq r then some seq else some r
    else revoke b

/-- `revoke_this_block`. If the entry of the block is older than `seq`, the loop stays at
    the same node of the tree and never ends. -/
def revokeThisBlock (block seq : Nat) : J Bool := fun s =>
  match s.revoke block with
  | none => some (.ok false, s)
  | some r => if seqGt seq r then none else some (.ok true, s)

/-- The number of entries `add_revoke_records` takes from a revoke block: `sizeof` is
    applied to the pointer `blkno`. -/
def revokeNum (buf : Block) : Nat := (buf 3 - 16) / 8

/-- The blocks `add_revoke_records` finds in a revoke block, in 32-bit words; none if
    `r_count` is corrupt. -/
def revokeRecords (jsb : Jsb) (buf : Block) : List Nat :=
  if buf 3 < 16 ∨ jsb.sBlocksize < buf 3 then []
  else (List.range (revokeNum buf)).map fun i => buf (4 + i)

/-- `add_revoke_records`, whose error its caller ignores. -/
def addRevokeRecords (jsb : Jsb) (buf : Block) (seq : Nat) : J Unit :=
  Prog.modify fun s =>
    { s with revoke := (revokeRecords jsb buf).foldl (fun t b => revokeInsert t b seq) s.revoke }

/-! ### Log positions -/

/-- The loop of `jwrap`; the number of rounds is bounded by the block, since every round
    makes it smaller. -/
def jwrapLoop (maxlen diff : Nat) : Nat → Nat → Nat
  | 0, block => block
  | fuel + 1, block => if maxlen ≤ block then jwrapLoop maxlen diff fuel (block - diff) else block

def jwrap (jsb : Jsb) (block : Nat) : Nat :=
  let diff := jsb.sMaxlen - jsb.sFirst
  if diff = 0 then 0 else jwrapLoop jsb.sMaxlen diff block block

/-- `lookup_journal_block` and `ocfs2_read_blocks`. -/
def readJournalBlock (env : Env) (blkoff : Nat) (checkDup : Bool) : J Block := fun s =>
  let blkno := env.phys blkoff
  if checkDup then
    let t := { s with used := fun b => if b = blkno then true else s.used b }
    if s.used blkno then some (.error .duplicateBlock, t) else some (.ok (s.dev blkno), t)
  else some (.ok (s.dev blkno), s)

/-! ### Tags -/

/-- `ocfs2_journal_tag_bytes`, in words. -/
def journalTagWords (jsb : Jsb) : Nat := if jsb.incompat64 then 3 else 2

/-- `ocfs2_journal_tag_block` of the tag at word `p`. -/
def journalTagBlock (jsb : Jsb) (buf : Block) (p : Nat) : Nat :=
  if jsb.incompat64 then buf p ||| (buf (p + 2) <<< 32) else buf p

def tagFlag (buf : Block) (p flag : Nat) : Bool := buf (p + 1) &&& flag != 0

def nextTag (jsb : Jsb) (buf : Block) (p : Nat) : Nat :=
  p + journalTagWords jsb + (if tagFlag buf p jbd2FlagSameUuid then 0 else 4)

def blockOutOfRange (fs : Filesys) (block : Nat) : Bool :=
  decide (block < superBlockBlkno) || decide (fs.fsBlocks < block)

/-- The loop of `count_tags`. -/
def countLoop (env : Env) (buf : Block) : Nat → Nat → Nat → Except JournalError Nat
  | 0, _, nr => .ok nr
  | fuel + 1, p, nr =>
    if (p + journalTagWords env.jsb) * 4 ≤ env.jsb.sBlocksize then
      if blockOutOfRange env.fs (journalTagBlock env.jsb buf p) then .error .badJournalTag
      else if tagFlag buf p jbd2FlagLastTag then .ok (nr + 1)
      else countLoop env buf fuel (nextTag env.jsb buf p) (nr + 1)
    else .ok nr

def countTags (env : Env) (buf : Block) : Except JournalError Nat :=
  if env.jsb.sBlocksize < (3 + journalTagWords env.jsb) * 4 then .error .badJournalTag
  else countLoop env buf env.jsb.sBlocksize 3 0

/-- `memcpy` of the magic number to the start of a block that was escaped. -/
def unescape (buf : Block) (p : Nat) (ioBuf : Block) : Block :=
  if tagFlag buf p jbd2FlagEscape then fun i => if i = 0 then jbd2MagicNumber else ioBuf i
  else ioBuf

/-- `io_write_block`. -/
def writeBlock (blkno : Nat) (buf : Block) : J Unit :=
  Prog.modify fun s => { s with dev := fun b => if b = blkno then buf else s.dev b }

/-- Copy one logged block to its place, unless it is revoked; the result is the error
    code after it. -/
def replayTag (env : Env) (buf : Block) (seq p nextBlock : Nat) (ret : Option JournalError) :
    J (Option JournalError) := do
  let block64 := journalTagBlock env.jsb buf p
  if ← revokeThisBlock block64 seq then pure ret
  else do
    match ← Prog.attempt (readJournalBlock env nextBlock true) with
    | .error err => pure (some err)
    | .ok ioBuf => do
      writeBlock block64 (unescape buf p ioBuf)
      pure ret

/-- The loop of `replay_blocks`: the next block of the log and the error code. -/
def replayLoop (env : Env) (buf : Block) (seq : Nat) :
    Nat → Nat → Nat → Option JournalError → J (Nat × Option JournalError)
  | 0, _, nextBlock, ret => pure (jwrap env.jsb nextBlock, ret)
  | left + 1, p, nextBlock, ret => do
    let nextBlock := jwrap env.jsb nextBlock
    let ret ← replayTag env buf seq p nextBlock ret
    if tagFlag buf p jbd2FlagLastTag then pure (jwrap env.jsb (nextBlock + 1), ret)
    else replayLoop env buf seq left (nextTag env.jsb buf p) (nextBlock + 1) ret

def replayBlocks (env : Env) (buf : Block) (seq nextBlock : Nat) : J (Nat × Option JournalError) :=
  let num := (env.jsb.sBlocksize - 12) / (journalTagWords env.jsb * 4)
  replayLoop env buf seq num 3 nextBlock none

/-! ### The walks -/

/-- The `switch` of `walk_journal` on the type of a log block: the sequence number, the
    block and the error code the loop goes on with. -/
def walkBlock (env : Env) (recover : Bool) (buf : Block) (nextSeq nextBlock : Nat)
    (ret : Option JournalError) : J (Nat × Nat × Option JournalError) :=
  if buf 1 = jbd2DescriptorBlock then
    if recover then do
      let (nextBlock, err) ← replayBlocks env buf nextSeq nextBlock
      pure (nextSeq, nextBlock, err.or ret)
    else
      match countTags env buf with
      | .error err => pure (nextSeq, nextBlock, some err)
      | .ok nr => pure (nextSeq, jwrap env.jsb (nextBlock + nr), ret)
  else if buf 1 = jbd2CommitBlock then pure ((nextSeq + 1) % 2 ^ 32, nextBlock, ret)
  else if buf 1 = jbd2RevokeBlock then do
    addRevokeRecords env.jsb buf nextSeq
    pure (nextSeq, nextBlock, ret)
  else pure (nextSeq, nextBlock, ret)

/-- The loop of `walk_journal`, which returns the error code and the sequence number it
    stopped at. -/
def walkLoop (env : Env) (recover : Bool) :
    Nat → Nat → Nat → Option JournalError → J (Option JournalError × Nat)
  | 0, _, _, _ => Prog.abort
  | fuel + 1, nextSeq, nextBlock, ret => do
    let s ← Prog.get
    if !recover && ret.isSome then pure (ret, nextSeq)
    else if recover && seqGeq nextSeq s.finalSeq then pure (ret, nextSeq)
    else do
      match ← Prog.attempt (readJournalBlock env nextBlock (!recover)) with
      | .error err => pure (some err, nextSeq)
      | .ok buf =>
        if buf 0 ≠ jbd2MagicNumber then pure (ret, nextSeq)
        else if buf 2 ≠ nextSeq then pure (ret, nextSeq)
        else do
          let (nextSeq, nextBlock, ret) ←
            walkBlock env recover buf nextSeq (jwrap env.jsb (nextBlock + 1)) ret
          walkLoop env recover fuel nextSeq nextBlock ret

/-- `walk_journal`, in at most `fuel` rounds of its loop; `s_start` is 0 if there is
    nothing to do. -/
def walkJournal (fuel : Nat) (env : Env) (recover : Bool) : J (Option JournalError) := do
  if env.jsb.sStart = 0 then pure none
  else do
    let (ret, nextSeq) ← walkLoop env recover fuel env.jsb.sSequence env.jsb.sStart none
    if !recover then Prog.modify fun s => { s with finalSeq := nextSeq }
    else pure ()
    pure ret

/-- What `o2fsck_replay_journals` does with one journal: an error of the first walk does
    not keep it from the second. -/
def replayJournal (fuel : Nat) (env : Env) : J (Option JournalError) := do
  let _ ← walkJournal fuel env false
  walkJournal fuel env true

end Ocfs2Tools.Journal
