import Ocfs2Tools.Bitops
import Ocfs2Tools.Lib.Prog

/-!
# Recovery of a slot: `slot_recovery.c`

The runs of a truncate log or of a local alloc window are freed one after the other, each of
them written to the global bitmap, and the file is emptied last. A run that is found clear is
an error. A recovery that stops behind its first write can therefore never be made again.
-/

namespace Ocfs2Tools.SlotRecovery

open List Prog Bitops

/-- First cluster and length of runs. -/
abbrev Runs : Type := List (Nat × Nat)

/-- The inode of a truncate log or of a local alloc window. -/
inductive SlotFile where
  | log (iFlags tlUsed : Nat) (tlRecs : Runs)
  | window (iFlags iTotal iUsed laBmOff : Nat) (laBitmap : List UInt8)

inductive RecoveryError where
  | invalidArgument | internalFailure | invalidBit | io

/-- What a run of fsck finds: the global bitmap on disk, the file, and how many more blocks can
    be written. -/
structure Disk where
  bits : Nat → Bool
  file : SlotFile
  left : Nat

abbrev R : Type := Prog Disk RecoveryError Unit

def clusters (r : Nat × Nat) : List Nat := range' r.1 r.2

def freed (bits : Nat → Bool) (cs : List Nat) (c : Nat) : Bool := c ∉ cs && bits c

def write (f : Disk → Disk) : R := fun d =>
  match d.left with
  | 0 => fail .io d
  | k + 1 => some (.ok (), { f d with left := k })

/-- `ocfs2_test_clusters`. Its error for a cluster that is not in the bitmap is the one its
    callers have for a cluster that is clear. -/
def testClusters (bits : Nat → Bool) (r : Nat × Nat) : Bool := r.2 != 0 && (clusters r).all bits

/-- The run lies in one group of `cpg` clusters. -/
def oneGroup (cpg : Nat) (r : Nat × Nat) : Bool := r.1 / cpg == (r.1 + r.2 - 1) / cpg

/-- The group descriptor is written and then the inode of the bitmap. The bits of a second
    group would be looked for behind the bitmap of the first one. -/
def freeClusters (cpg : Nat) (r : Nat × Nat) : R :=
  if oneGroup cpg r then do
    write fun d => { d with bits := freed d.bits (clusters r) }
    write id
  else abort

def SlotFile.emptied : SlotFile → SlotFile
  | log fl _ recs => log fl 0 (recs.map fun _ => (0, 0))
  | window fl _ _ _ bm => window fl 0 0 0 (bm.map fun _ => 0)

/-- The loop of both recoveries and its end. -/
def replay (cpg : Nat) : Runs → R
  | [] => write fun d => { d with file := d.file.emptied }
  | r :: rs => do
    let d ← get
    if testClusters d.bits r then do
      freeClusters cpg r
      replay cpg rs
    else fail .invalidBit

def logRuns (used : Nat) (recs : Runs) : Runs := (recs.take used).filter fun r => r.1 != 0

def clearTruncateLog (cpg fl used : Nat) (recs : Runs) : R :=
  if fl &&& 0x811 ≠ 0x811 then fail .invalidArgument
  else if recs.length < used then fail .internalFailure
  else replay cpg (logRuns used recs)

/-- The runs the loop of `ocfs2_clear_local_alloc` comes to, `count` clear bits ending at
    `start`. It reads nothing that it changes. -/
def windowRuns (off total : Nat) (bm : List UInt8) : Nat → Nat → Nat → Runs
  | 0, _, _ => []
  | fuel + 1, start, count =>
    let bitOff := findNextBitClear bm total start
    if bitOff < total ∧ bitOff = start then windowRuns off total bm fuel (start + 1) (count + 1)
    else
      (if count = 0 then [] else [(off + (start - count), count)]) ++
        if total ≤ bitOff then [] else windowRuns off total bm fuel (bitOff + 1) 1

def clearLocalAlloc (cpg fl total used off : Nat) (bm : List UInt8) : R :=
  if fl &&& 0x91 ≠ 0x91 then fail .invalidArgument
  else if total = 0 then pure ()
  else replay cpg (if used = total then [] else windowRuns off total bm (total + 1) 0 0)

def recover (cpg : Nat) : R := fun d =>
  match d.file with
  | .log fl used recs => clearTruncateLog cpg fl used recs d
  | .window fl total used off bm => clearLocalAlloc cpg fl total used off bm d

/-! ### The runs -/

variable {cpg off total fuel start count c : Nat} {bits : Nat → Bool} {r : Nat × Nat}
  {rs : Runs} {d : Disk} {f : SlotFile} {bm : List UInt8}

/-- Every run has clusters, lies in one group, and is set when its turn comes. -/
def Ready (cpg : Nat) (bits : Nat → Bool) : Runs → Prop
  | [] => True
  | r :: rs => (r.2 ≠ 0 ∧ oneGroup cpg r ∧ ∀ c ∈ clusters r, bits c) ∧
    Ready cpg (freed bits (clusters r)) rs

theorem testClusters_iff : testClusters bits r ↔ r.2 ≠ 0 ∧ ∀ c ∈ clusters r, bits c := by
  simp [testClusters]

theorem freed_append (bits : Nat → Bool) (cs ds : List Nat) :
    freed (freed bits cs) ds = freed bits (cs ++ ds) := by
  funext c
  simp [freed, Bool.and_left_comm, Bool.and_assoc]

theorem Ready.set (h : Ready cpg bits rs) (hc : c ∈ rs.flatMap clusters) : bits c = true := by
  induction rs generalizing bits with
  | nil => cases hc
  | cons r rs ih =>
    rcases mem_append.mp hc with hc | hc
    · exact h.1.2.2 c hc
    · exact (Bool.and_eq_true_iff.mp (ih h.2 hc)).2

/-- A recovery does all of its work, or it comes to a run across two groups, or it fails. Then it
    has written nothing, or some cluster of a run is clear. -/
theorem replay_run (cpg : Nat) : ∀ (rs : Runs) (d : Disk),
    (Ready cpg d.bits rs ∧ 2 * rs.length < d.left) ∧ (∃ k, replay cpg rs d =
          some (.ok (), ⟨freed d.bits (rs.flatMap clusters), d.file.emptied, k⟩)) ∨
      ¬ Ready cpg d.bits rs ∧ replay cpg rs d = none ∨
      ¬ (Ready cpg d.bits rs ∧ 2 * rs.length < d.left) ∧
        ∃ err e, replay cpg rs d = some (.error err, e) ∧ e.file = d.file ∧
          (e = d ∧ (Ready cpg d.bits rs → d.left = 0) ∨
            d.left ≠ 0 ∧ ∃ c ∈ rs.flatMap clusters, e.bits c = false)
  | [], ⟨bits, file, 0⟩ => .inr (.inr ⟨nofun, .io, _, rfl, rfl, .inl ⟨rfl, fun _ => rfl⟩⟩)
  | [], ⟨bits, file, k + 1⟩ => .inl ⟨⟨trivial, Nat.succ_pos k⟩, k, rfl⟩
  | r :: rs, ⟨bits, file, left⟩ => by
    simp only [replay, Ready, length_cons, flatMap_cons, bind_run, get_run, freeClusters]
    by_cases hset : testClusters bits r
    swap
    · rw [if_neg hset]
      have hn (h : r.2 ≠ 0 ∧ oneGroup cpg r ∧ ∀ c ∈ clusters r, bits c) : False :=
        hset (testClusters_iff.mpr ⟨h.1, h.2.2⟩)
      exact .inr (.inr ⟨fun h => hn h.1.1, .invalidBit, _, rfl, rfl,
        .inl ⟨rfl, fun h => (hn h.1).elim⟩⟩)
    obtain ⟨hpos, hbits⟩ := testClusters_iff.mp hset
    rw [if_pos hset]
    by_cases hr : oneGroup cpg r
    swap
    · exact .inr (.inl ⟨fun h => hr h.1.2.1, by rw [if_neg hr]; rfl⟩)
    have hclear : r.1 ∈ clusters r ++ rs.flatMap clusters ∧
        freed bits (clusters r) r.1 = false := by
      simp [clusters, freed, Nat.pos_iff_ne_zero, hpos]
    rw [if_pos hr]
    match left with
    | 0 => exact .inr (.inr ⟨nofun, .io, _, rfl, rfl, .inl ⟨rfl, fun _ => rfl⟩⟩)
    | 1 => exact .inr (.inr ⟨by omega, .io, _, rfl, rfl, .inr ⟨nofun, r.1, hclear⟩⟩)
    | left + 2 =>
      rcases replay_run cpg rs ⟨freed bits (clusters r), file, left⟩ with
        ⟨⟨hready, hlt⟩, k, hk⟩ | ⟨hn, hk⟩ | ⟨hn, err, e, he, hf, hend⟩
      · rw [freed_append] at hk
        exact .inl ⟨⟨⟨⟨hpos, hr, hbits⟩, hready⟩, by dsimp only at hlt; omega⟩, k, hk⟩
      · exact .inr (.inl ⟨fun h => hn h.2, hk⟩)
      · refine .inr (.inr ⟨fun h => hn ⟨h.1.2, by dsimp only; omega⟩, err, e, he, hf,
          .inr ⟨nofun, ?_⟩⟩)
        rcases hend with ⟨rfl, -⟩ | ⟨-, c, hc, hend⟩
        · exact ⟨r.1, hclear⟩
        · exact ⟨c, mem_append_right _ hc, hend⟩

/-- The clusters of the window whose bit is clear, from bit `lo` on. -/
def ClearFrom (off total : Nat) (bm : List UInt8) (lo c : Nat) : Prop :=
  off + lo ≤ c ∧ c < off + total ∧ testBit (c - off) bm = false

theorem mem_windowRuns (hb : total ≤ 8 * bm.length) (hs : start ≤ total) (hf : total < fuel + start)
    (hclear : Clear bm (start - count) start) (hc : count ≤ start) :
    c ∈ (windowRuns off total bm fuel start count).flatMap clusters ↔
      ClearFrom off total bm (start - count) c := by
  induction fuel generalizing start count with
  | zero => omega
  | succ fuel ih =>
    rw [windowRuns]
    obtain ⟨hskip, hfound⟩ := findNextBitClear_spec hb hs
    generalize findNextBitClear bm total start = b at hskip hfound
    split
    · rename_i hat
      obtain ⟨hlt, rfl⟩ := hat
      rw [show b - count = b + 1 - (count + 1) by omega] at hclear ⊢
      refine ih (by omega) (by omega) (fun i h1 h2 => ?_) (by omega)
      rcases Nat.lt_succ_iff_lt_or_eq.mp h2 with h | rfl
      · exact hclear i h1 h
      · exact (hfound hlt).2
    · have hfront : c ∈ (if count = 0 then [] else [(off + (start - count), count)]).flatMap
          clusters ↔ off + (start - count) ≤ c ∧ c < off + start := by
        split
        · simp [*]
        · simp [clusters, mem_range'_1, show off + (start - count) + count = off + start by omega]
      have hrest : c ∈ (if total ≤ b then [] else windowRuns off total bm fuel (b + 1) 1).flatMap
          clusters ↔ ClearFrom off total bm b c := by
        split
        · simp only [flatMap_nil, not_mem_nil, ClearFrom, false_iff]
          omega
        · obtain ⟨hle, hbit⟩ := hfound (by omega)
          exact ih (by omega) (by omega) (fun i h1 h2 => by rwa [show i = b by omega]) (by omega)
      rw [flatMap_append, mem_append, hfront, hrest]
      constructor
      · rintro (⟨h1, h2⟩ | ⟨h1, h2⟩)
        · exact ⟨h1, by omega, hclear (c - off) (by omega) (by omega)⟩
        · exact ⟨by have := (hfound (by omega)).1; omega, h2⟩
      · rintro ⟨h1, h2, h3⟩
        by_cases hlt : c < off + start
        · exact .inl ⟨h1, hlt⟩
        · refine .inr ⟨not_lt.mp fun hcb => ?_, h2, h3⟩
          rw [hskip (c - off) (by omega) (by omega) (by omega)] at h3
          cases h3

/-! ### A recovery and what can follow it -/

namespace SlotFile

def runs : SlotFile → Runs
  | log _ used recs => logRuns used recs
  | window _ total used off bm =>
    if used = total then [] else windowRuns off total bm (total + 1) 0 0

/-- The clusters that the file gives back. -/
def Frees : SlotFile → Nat → Prop
  | log _ used recs, c => c ∈ (logRuns used recs).flatMap clusters
  | window _ total _ off bm, c => ClearFrom off total bm 0 c

/-- A log, or a window in its block. -/
def Valid : SlotFile → Prop
  | log fl used recs => fl &&& 0x811 = 0x811 ∧ used ≤ recs.length
  | window fl total _ _ bm => fl &&& 0x91 = 0x91 ∧ 0 < total ∧ total ≤ 8 * bm.length

/-- `i_used` says that no bit of the window is clear. -/
def Full : SlotFile → Prop
  | log .. => False
  | window _ total used _ _ => used = total

theorem mem_runs (h : f.Valid) (c : Nat) :
    c ∈ f.runs.flatMap clusters ↔ f.Frees c ∧ ¬ f.Full := by
  cases f with
  | log => simp [runs, Frees, Full]
  | window fl total used off bm =>
    rw [runs]
    split
    · rename_i heq
      simp [Full, heq]
    · rename_i hne
      rw [mem_windowRuns h.2.2 (Nat.zero_le total) (by omega) (fun i h1 h2 => by omega) (le_refl 0)]
      exact (and_iff_left hne).symm

end SlotFile

theorem recover_eq (h : d.file.Valid) : recover cpg d = replay cpg d.file.runs d := by
  unfold recover
  split
  all_goals
    rename_i hf
    rw [hf] at h ⊢
  · simp [clearTruncateLog, h.1, Nat.not_lt.mpr h.2, SlotFile.runs]
  · simp [clearLocalAlloc, h.1, Nat.ne_of_gt h.2.1, SlotFile.runs]

/-- What the file of `d` frees is clear and nothing else has changed, and the file is empty. -/
structure Done (d e : Disk) : Prop where
  freed : ∀ c, d.file.Frees c → e.bits c = false
  kept : ∀ c, ¬ d.file.Frees c → e.bits c = d.bits c
  file : e.file = d.file.emptied

/-- The window is not searched if it is full, so what it frees must be clear already. -/
theorem done_iff (h : d.file.Valid) (k : Nat) :
    Done d ⟨freed d.bits (d.file.runs.flatMap clusters), d.file.emptied, k⟩ ↔
      (d.file.Full → ∀ c, d.file.Frees c → d.bits c = false) := by
  constructor
  · intro hd hfull c hc
    simpa [freed, SlotFile.mem_runs h, hfull] using hd.freed c hc
  · intro hfull
    refine ⟨fun c hc => ?_, fun c hc => ?_, rfl⟩
    · by_cases hf : d.file.Full
      · simp [freed, hfull hf c hc]
      · simp [freed, SlotFile.mem_runs h, hc, hf]
    · simp [freed, SlotFile.mem_runs h, hc]

/-- The recovery is done, or it fails and the next one that can write does it. -/
def Recovers (cpg : Nat) (d : Disk) : Prop :=
  ∃ o e, recover cpg d = some (o, e) ∧ (o = .ok () ∧ Done d e ∨ o ≠ .ok () ∧
    ∀ left, 2 * d.file.runs.length < left →
      ∃ e', recover cpg { e with left } = some (.ok (), e') ∧ Done d e')

/-- **A slot is recovered**, if need be by a second recovery, exactly if `i_used` hides no bit of
    its window, each of its runs has clusters, lies in one group and is set, and no write fails or
    already the first one does. -/
theorem recovers_iff (h : d.file.Valid) : Recovers cpg d ↔
      (d.file.Full → ∀ c, d.file.Frees c → d.bits c = false) ∧
      Ready cpg d.bits d.file.runs ∧ (d.left = 0 ∨ 2 * d.file.runs.length < d.left) := by
  unfold Recovers
  rw [recover_eq h]
  rcases replay_run cpg d.file.runs d with ⟨hok, k, hk⟩ | ⟨hn, hk⟩ | ⟨hn, err, e, he, hfile, hend⟩
  · rw [hk, ← done_iff h k]
    constructor
    · rintro ⟨_, _, heq, ⟨-, hd⟩ | ⟨hne, -⟩⟩
      · cases heq
        exact ⟨hd, hok.1, .inr hok.2⟩
      · cases heq
        exact absurd rfl hne
    · exact fun hd => ⟨_, _, rfl, .inl ⟨rfl, hd.1⟩⟩
  · rw [hk]
    exact iff_of_false nofun fun hd => hn hd.2.1
  rw [he]
  constructor
  · rintro ⟨_, _, heq, ⟨rfl, -⟩ | ⟨-, hagain⟩⟩
    · cases heq
    cases heq
    obtain ⟨e', hrun, hd⟩ := hagain _ (Nat.lt_succ_self _)
    generalize Nat.succ _ = left at hrun
    have h' : e.file.Valid := hfile ▸ h
    rw [recover_eq (d := { e with left }) h'] at hrun
    rcases replay_run cpg e.file.runs { e with left } with
      ⟨⟨hready, -⟩, k, hk⟩ | ⟨-, hk⟩ | ⟨-, _, _, he', -⟩
    · -- a run that is clear by now would be refused
      rcases hend with ⟨rfl, hleft⟩ | ⟨-, c, hc, hbit⟩
      · cases hk.symm.trans hrun
        exact ⟨(done_iff h k).mp hd, hready, .inl (hleft hready)⟩
      · rw [← hfile] at hc
        cases (hready.set hc).symm.trans hbit
    · cases hk.symm.trans hrun
    · cases hrun.symm.trans he'
  · rintro ⟨hfull, hready, hleft⟩
    have hzero : d.left = 0 := hleft.resolve_right fun hlt => hn ⟨hready, hlt⟩
    rcases hend with ⟨rfl, -⟩ | ⟨hne, -⟩
    · refine ⟨_, _, rfl, .inr ⟨nofun, fun left hlt => ?_⟩⟩
      rw [recover_eq (d := { e with left }) h]
      rcases replay_run cpg e.file.runs { e with left } with ⟨-, k, hk⟩ | ⟨hn', -⟩ | ⟨hn', -⟩
      · exact ⟨_, hk, (done_iff h k).mpr hfull⟩
      · exact absurd hready hn'
      · exact absurd ⟨hready, hlt⟩ hn'
    · exact absurd hzero hne

/-- Two records that are set, and a device that writes `left` more blocks. -/
def twoRecords (left : Nat) : Disk := ⟨(· < 32), .log 0x811 2 [(8, 2), (16, 2)], left⟩

/-- The second record is not written. The next recovery finds the first one clear. -/
theorem twoRecords_lost : Ready 32 (twoRecords 2).bits (twoRecords 2).file.runs ∧
    ∃ e, recover 32 (twoRecords 2) = some (.error .io, e) ∧ e.bits 8 = false ∧
      recover 32 { e with left := 100 } = some (.error .invalidBit, { e with left := 100 }) :=
  ⟨⟨by decide, by decide, trivial⟩, _, rfl, rfl, rfl⟩

theorem twoRecords_recovers : Recovers 32 (twoRecords 5) :=
  (recovers_iff (d := twoRecords 5) ⟨rfl, by decide⟩).2
    ⟨nofun, ⟨by decide, by decide, trivial⟩, .inr (by decide)⟩

end Ocfs2Tools.SlotRecovery
