import Ocfs2Tools.Journal.Model

/-!
# What a log holds

A log is a list of committed transactions, each of which ends in a commit record, and the
records of one that was not committed. `RecordsAt` says that the blocks of a journal
hold them, from one position of the circular log to another. Positions count blocks from
`s_start` on, and `pos` is where `jwrap` takes them.
-/

namespace Ocfs2Tools.Journal

/-- A descriptor block, with the places of its tags and the data block of each, a
    revoke block, or the commit block that ends a transaction. -/
inductive Record where
  | descriptor (buf : Block) (logged : List (Nat × Block))
  | revoke (buf : Block)
  | commit

/-- Records of complete transactions: the last of them is a commit. -/
def Complete (rs : List Record) : Prop := rs = [] ∨ rs.getLast? = some .commit

/-- Any number of complete transactions, and a `tail` that belongs to one that is not. -/
structure Log where
  committed : List Record
  tail : List Record
  complete : Complete committed
  uncommitted : ∀ r ∈ tail, r ≠ .commit

/-! ### Positions -/

variable (jsb : Jsb)

/-- The number of blocks of the circular log. -/
def area : Nat := jsb.sMaxlen - jsb.sFirst

def pos (k : Nat) : Nat := jsb.sFirst + (jsb.sStart - jsb.sFirst + k) % area jsb

/-- A journal whose log starts in the area of the log, and whose blocks are distinct
    blocks of the device. -/
structure Env.Ok (env : Env) : Prop where
  first_le : env.jsb.sFirst ≤ env.jsb.sStart
  start_lt : env.jsb.sStart < env.jsb.sMaxlen
  start_pos : 0 < env.jsb.sStart
  sequence_lt : env.jsb.sSequence < 2 ^ 32
  phys_inj : ∀ i j, env.jsb.sFirst ≤ i → i < env.jsb.sMaxlen → env.jsb.sFirst ≤ j →
    j < env.jsb.sMaxlen → env.phys i = env.phys j → i = j

/-- A block of the log area. -/
def Env.InLog (env : Env) (b : Nat) : Prop :=
  ∃ l, env.jsb.sFirst ≤ l ∧ l < env.jsb.sMaxlen ∧ env.phys l = b

def Env.logBlkno (env : Env) (k : Nat) : Nat := env.phys (pos env.jsb k)

theorem first_le_pos (k : Nat) : jsb.sFirst ≤ pos jsb k := Nat.le_add_right _ _

theorem Env.logBlkno_area (env : Env) : env.logBlkno (area env.jsb) = env.logBlkno 0 := by
  unfold Env.logBlkno pos
  rw [add_zero, Nat.add_mod_right]

section Positions

variable {env : Env} (ok : env.Ok)
include ok

theorem Env.Ok.area_pos : 0 < area env.jsb := by
  have h1 := ok.first_le
  have h2 := ok.start_lt
  unfold area
  omega

theorem Env.Ok.pos_zero : pos env.jsb 0 = env.jsb.sStart := by
  have h1 := ok.first_le
  have h2 := ok.start_lt
  unfold pos area
  rw [Nat.mod_eq_of_lt (by omega)]
  omega

theorem Env.Ok.pos_lt (k : Nat) : pos env.jsb k < env.jsb.sMaxlen := by
  have h1 := Nat.mod_lt (env.jsb.sStart - env.jsb.sFirst + k) ok.area_pos
  have h2 : area env.jsb = env.jsb.sMaxlen - env.jsb.sFirst := rfl
  unfold pos
  omega

theorem Env.Ok.logBlkno_inLog (k : Nat) : env.InLog (env.logBlkno k) :=
  ⟨pos env.jsb k, first_le_pos env.jsb k, ok.pos_lt k, rfl⟩

theorem Env.Ok.logBlkno_inj {j k : Nat} (hj : j < area env.jsb) (hk : k < area env.jsb)
    (h : env.logBlkno j = env.logBlkno k) : j = k := by
  have hpos := ok.phys_inj _ _ (first_le_pos env.jsb j) (ok.pos_lt j) (first_le_pos env.jsb k)
    (ok.pos_lt k) h
  have hmod : (env.jsb.sStart - env.jsb.sFirst + j) % area env.jsb =
      (env.jsb.sStart - env.jsb.sFirst + k) % area env.jsb := Nat.add_left_cancel hpos
  have hcancel : Nat.ModEq (area env.jsb) j k := Nat.ModEq.add_left_cancel' _ hmod
  exact Nat.ModEq.eq_of_lt_of_lt hcancel hj hk

end Positions

theorem jwrapLoop_eq {first diff : Nat} (hdiff : 0 < diff) (fuel block) (h1 : first ≤ block)
    (h2 : block ≤ fuel) :
    jwrapLoop (first + diff) diff fuel block = first + (block - first) % diff := by
  induction fuel generalizing block with
  | zero =>
    have hblock : block = first := by omega
    subst hblock
    simp [jwrapLoop]
  | succ fuel ih =>
    unfold jwrapLoop
    split
    · rw [ih (block - diff) (by omega) (by omega)]
      have hsplit : block - first = block - diff - first + diff := by omega
      rw [hsplit, Nat.add_mod_right]
    · rw [Nat.mod_eq_of_lt (by omega)]
      omega

theorem jwrap_pos {env : Env} (ok : env.Ok) (k n : Nat) :
    jwrap env.jsb (pos env.jsb k + n) = pos env.jsb (k + n) := by
  have hpos := ok.area_pos
  have hlen : env.jsb.sMaxlen = env.jsb.sFirst + area env.jsb := by
    have h1 := ok.first_le
    have h2 := ok.start_lt
    unfold area
    omega
  have hfirst := first_le_pos env.jsb k
  unfold jwrap
  have hdiff : env.jsb.sMaxlen - env.jsb.sFirst = area env.jsb := rfl
  simp only [hdiff]
  rw [if_neg (Nat.pos_iff_ne_zero.mp hpos)]
  rw [hlen, jwrapLoop_eq hpos _ _ (by omega) le_rfl]
  have hsub : pos env.jsb k + n - env.jsb.sFirst =
      (env.jsb.sStart - env.jsb.sFirst + k) % area env.jsb + n := by
    unfold pos
    omega
  rw [hsub, Nat.mod_add_mod, add_assoc]
  rfl

/-! ### Contents -/

/-- A block with the header of a log block. -/
def Header (buf : Block) (blocktype seq : Nat) : Prop :=
  buf 0 = jbd2MagicNumber ∧ buf 1 = blocktype ∧ buf 2 = seq

/-- The tag at word `p` lies within the block. -/
def TagFits (p : Nat) : Prop := (p + journalTagWords jsb) * 4 ≤ jsb.sBlocksize

/-- The tags of a descriptor block from word `p` on, up to one that is marked as the last. -/
inductive Tags (env : Env) (buf : Block) : Nat → List Nat → Prop
  | last {p : Nat} : TagFits env.jsb p →
      blockOutOfRange env.fs (journalTagBlock env.jsb buf p) = false →
      tagFlag buf p jbd2FlagLastTag = true → Tags env buf p [p]
  | more {p : Nat} {ps : List Nat} : TagFits env.jsb p →
      blockOutOfRange env.fs (journalTagBlock env.jsb buf p) = false →
      tagFlag buf p jbd2FlagLastTag = false → Tags env buf (nextTag env.jsb buf p) ps →
      Tags env buf p (p :: ps)

/-- The data blocks that follow a descriptor block, from position `k` on. -/
inductive DataAt (env : Env) (dev : Nat → Block) : Nat → List (Nat × Block) → Prop
  | nil (k : Nat) : DataAt env dev k []
  | cons {k p : Nat} {rest : List (Nat × Block)} : DataAt env dev (k + 1) rest →
      DataAt env dev k ((p, dev (env.logBlkno k)) :: rest)

/-- The width of a block number in a revoke block. -/
def revokeWidth : Nat := if jsb.incompat64 then 8 else 4

/-- `r_count` is the number of bytes used, and they hold whole block numbers. -/
def RevokeCount (buf : Block) : Prop :=
  16 ≤ buf 3 ∧ buf 3 ≤ jsb.sBlocksize ∧ (buf 3 - 16) % revokeWidth jsb = 0

/-- The sequence number of a transaction, which counts from the first of the log. -/
def seqOf (t : Nat) : Nat := (jsb.sSequence + t) % 2 ^ 32

/-- The records from position `k` and transaction `t` on, up to a position and
    transaction. A logged block is not one of the log itself. -/
inductive RecordsAt (env : Env) (dev : Nat → Block) : Nat → Nat → List Record → Nat → Nat → Prop
  | nil (t k : Nat) : RecordsAt env dev t k [] t k
  | descriptor {t k t' k' : Nat} {logged : List (Nat × Block)} {rest : List Record} :
      Header (dev (env.logBlkno k)) jbd2DescriptorBlock (seqOf env.jsb t) →
      Tags env (dev (env.logBlkno k)) 3 (logged.map Prod.fst) →
      DataAt env dev (k + 1) logged →
      (∀ p ∈ logged, ¬ env.InLog (journalTagBlock env.jsb (dev (env.logBlkno k)) p.1)) →
      RecordsAt env dev t (k + 1 + logged.length) rest t' k' →
      RecordsAt env dev t k (.descriptor (dev (env.logBlkno k)) logged :: rest) t' k'
  | revoke {t k t' k' : Nat} {rest : List Record} :
      Header (dev (env.logBlkno k)) jbd2RevokeBlock (seqOf env.jsb t) →
      RevokeCount env.jsb (dev (env.logBlkno k)) →
      RecordsAt env dev t (k + 1) rest t' k' →
      RecordsAt env dev t k (.revoke (dev (env.logBlkno k)) :: rest) t' k'
  | commit {t k t' k' : Nat} {rest : List Record} :
      Header (dev (env.logBlkno k)) jbd2CommitBlock (seqOf env.jsb t) →
      RecordsAt env dev (t + 1) (k + 1) rest t' k' →
      RecordsAt env dev t k (.commit :: rest) t' k'

/-- The log area holds `log` from `s_start` on: its committed part ends with transaction
    number `t`, and after the tail there is no block that goes on with it. -/
structure LogAt (env : Env) (dev : Nat → Block) (log : Log) (t : Nat) : Prop where
  holds : ∃ k n, RecordsAt env dev 0 0 log.committed t k ∧ RecordsAt env dev t k log.tail t n ∧
    n ≤ area env.jsb ∧
    (n < area env.jsb → ∀ ty, ¬ Header (dev (env.logBlkno n)) ty (seqOf env.jsb t))
  few : t < 2 ^ 31

/-! ### What the log means -/

/-- What the records of every transaction hold, in the order of the log. -/
def inRecords {α : Type} (f : Nat → Record → List α) : Nat → List Record → List α
  | _, [] => []
  | t, .commit :: rest => inRecords f (t + 1) rest
  | t, r :: rest => f t r ++ inRecords f t rest

/-- A copy of a file system block that a transaction logged. -/
structure Copy where
  txn : Nat
  block : Nat
  content : Block

def Record.copies (t : Nat) : Record → List Copy
  | .descriptor buf logged =>
    logged.map fun p => ⟨t, journalTagBlock jsb buf p.1, unescape buf p.1 p.2⟩
  | _ => []

def Log.copies (log : Log) : List Copy := inRecords (Record.copies jsb) 0 log.committed

/-- The block numbers in a revoke block, in the width the journal has. -/
def revokedBlocks (buf : Block) : List Nat :=
  (List.range ((buf 3 - 16) / revokeWidth jsb)).map fun i =>
    if jsb.incompat64 then (buf (4 + 2 * i) <<< 32) ||| buf (4 + 2 * i + 1) else buf (4 + i)

def Record.revokes (t : Nat) : Record → List (Nat × Nat)
  | .revoke buf => (revokedBlocks jsb buf).map fun b => (t, b)
  | _ => []

/-- A committed transaction with number `t` or later revoked the block. -/
def Log.revoked (log : Log) (t b : Nat) : Bool :=
  (inRecords (Record.revokes jsb) 0 log.committed).any fun r =>
    decide (t ≤ r.1) && decide (r.2 = b)

/-- What a block has to hold after the replay: its last copy that is not revoked. -/
def Log.expected (log : Log) (dev : Nat → Block) (b : Nat) : Block :=
  match ((log.copies jsb).filter fun c =>
      decide (c.block = b) && !log.revoked jsb c.txn b).getLast? with
  | some c => c.content
  | none => dev b

/-! ### What `fsck` takes from it -/

/-- The revoke entries `add_revoke_records` takes from a record. -/
def Record.found (t : Nat) : Record → List (Nat × Nat)
  | .revoke buf => (revokeRecords jsb buf).map fun b => (t, b)
  | _ => []

/-- The entries the scan finds, those of the uncommitted transaction included. -/
def Log.found (log : Log) : List (Nat × Nat) :=
  inRecords (Record.found jsb) 0 (log.committed ++ log.tail)

/-- The last transaction an entry for the block was found in. -/
def lastFound (found : List (Nat × Nat)) (b : Nat) : Option Nat :=
  ((found.filter fun r => decide (r.2 = b)).getLast?).map Prod.fst

def Log.lastCopy (log : Log) (b : Nat) : Option Copy :=
  ((log.copies jsb).filter fun c => decide (c.block = b)).getLast?

/-- The replay of a block goes right: its last copy is not newer than an entry found for
    it, and there is an entry just if the copy is revoked, unless the copy is what the block
    holds anyway. -/
def Log.Decided (log : Log) (dev : Nat → Block) (b : Nat) : Prop :=
  ∀ c, log.lastCopy jsb b = some c → (∀ r, lastFound (log.found jsb) b = some r → c.txn ≤ r) ∧
    ((lastFound (log.found jsb) b).isSome = log.revoked jsb c.txn b ∨ c.content = dev b)

end Ocfs2Tools.Journal
