import Ocfs2Tools.Journal.Recover

/-!
# Both walks

The scan and the recovery together. They do what the log means just if the revoke entries
the scan found decide every block as the committed transactions do. A block that is
revoked and then logged again by a later transaction is enough for the recovery never to
return.
-/

namespace Ocfs2Tools.Journal

open List

variable {jsb : Jsb} {log : Log} {t t' b : Nat} {env : Env} {dev : Nat → Block}

/-! ### The meaning of the log -/

theorem Log.revoked_anti (ht : t ≤ t') (h : log.revoked jsb t' b = true) :
    log.revoked jsb t b = true := by
  unfold Log.revoked at h ⊢
  rw [any_eq_true] at h ⊢
  obtain ⟨r, hr, hb⟩ := h
  rw [Bool.and_eq_true, decide_eq_true_eq] at hb
  refine ⟨r, hr, ?_⟩
  rw [Bool.and_eq_true, decide_eq_true_eq]
  exact ⟨ht.trans hb.1, hb.2⟩

theorem Log.copies_sorted (jsb : Jsb) (log : Log) :
    (log.copies jsb).Pairwise fun a b => a.txn ≤ b.txn :=
  inRecords_sorted (fun t r => r.copies_txn jsb t) _ _

theorem Log.expected_eq (jsb : Jsb) (log : Log) (dev : Nat → Block) (b : Nat) :
    log.expected jsb dev b =
      match log.lastCopy jsb b with
      | some c => if log.revoked jsb c.txn b then dev b else c.content
      | none => dev b := by
  have hfilter : ((log.copies jsb).filter fun c =>
      decide (c.block = b) && !log.revoked jsb c.txn b) =
      ((log.copies jsb).filter fun c => decide (c.block = b)).filter
        fun c => !log.revoked jsb c.txn b := by
    rw [filter_filter]
    congr 1
    funext c
    exact Bool.and_comm _ _
  unfold Log.expected
  rw [hfilter]
  cases hlast : log.lastCopy jsb b with
  | none =>
    have hnil := getLast?_eq_none_iff.mp hlast
    rw [hnil]
    rfl
  | some c =>
    by_cases hrev : log.revoked jsb c.txn b = true
    · -- then so are all copies before it
      have hnil : (((log.copies jsb).filter fun c => decide (c.block = b)).filter
          fun c => !log.revoked jsb c.txn b) = [] := by
        rw [filter_eq_nil_iff]
        intro a ha
        rw [mem_filter] at ha
        have hle := le_getLast?_filter (log.copies_sorted jsb) hlast ha.1 ha.2
        rw [Log.revoked_anti hle hrev]
        decide
      rw [hnil]
      simp only [hrev, if_true]
      rfl
    · obtain ⟨front, hfront⟩ := getLast?_eq_some_iff.mp hlast
      rw [hfront]
      simp [hrev]

/-! ### The walks -/

/-- A journal to replay: its log area holds `log`, none of its blocks is marked yet, and the
    revoke tree is empty. -/
structure Ready (env : Env) (s : St) (log : Log) (t : Nat) : Prop where
  ok : env.Ok
  log : LogAt env s.dev log t
  free : ∀ j, j < area env.jsb → s.used (env.logBlkno j) = false
  fresh : s.revoke = fun _ => none

theorem Log.found_sorted (jsb : Jsb) (log : Log) : (log.found jsb).Pairwise fun a b => a.1 ≤ b.1 :=
  inRecords_sorted (fun t r => r.found_txn jsb t) _ _

theorem inRecords_found_le {k k' : Nat} {rs : List Record} (h : RecordsAt env dev t k rs t' k') :
    ∀ r ∈ inRecords (Record.found env.jsb) t rs, r.1 ≤ t' := by
  induction h with
  | nil t k =>
    intro r hr
    cases hr
  | descriptor _ _ _ _ _ ih => exact ih
  | @revoke t k t' k' rest _ _ hrest ih =>
    intro r hr
    rcases mem_append.mp hr with hhere | hlater
    · rw [Record.found_txn env.jsb t _ r hhere]
      exact hrest.txn_le
    · exact ih r hlater
  | commit _ _ ih => exact ih

theorem replayJournal_replays {s : St} {fuel : Nat} (h : Ready env s log t)
    (hfuel : env.jsb.sMaxlen < fuel) :
    match applyCopies (log.found env.jsb) (log.copies env.jsb) s.dev with
    | none => replayJournal fuel env s = none
    | some dev' => ∃ ret s', replayJournal fuel env s = some (.ok ret, s') ∧ s'.dev = dev' := by
  obtain ⟨ret, used, hdata, hscan⟩ := scan_log h.ok h.log h.free h.fresh hfuel
  obtain ⟨k, n, hcommitted, htail, hn, _⟩ := h.log.holds
  have hfew := h.log.few
  have hfound : ∀ r ∈ log.found env.jsb, r.1 < 2 ^ 31 := fun r hr =>
    lt_of_le_of_lt (inRecords_found_le (hcommitted.append htail) r hr) hfew
  have hin : ∀ r ∈ inRecords (Record.found env.jsb) 0 log.committed, r ∈ log.found env.jsb := by
    intro r hr
    unfold Log.found
    rw [inRecords_append _ hcommitted]
    exact mem_append_left _ hr
  have hlen := hcommitted.length_le
  have htail' := htail.length_le
  have harea : area env.jsb ≤ env.jsb.sMaxlen := Nat.sub_le _ _
  obtain ⟨f, hf⟩ := Nat.exists_eq_add_of_le (by omega : log.committed.length + 1 ≤ fuel)
  have hwalk := recover_records h.ok (log.found_sorted env.jsb) hfound hcommitted (by omega) hfew
    (s := { s with used := used, revoke := tableOf env.jsb (log.found env.jsb),
                   finalSeq := seqOf env.jsb t })
    (f + 1) log.complete hin (fun _ => rfl) rfl rfl hdata
  rw [h.ok.seqOf_zero, h.ok.pos_zero, show f + 1 + log.committed.length = fuel by omega] at hwalk
  have hstart : ¬ env.jsb.sStart = 0 := Nat.pos_iff_ne_zero.mp h.ok.start_pos
  unfold Replays at hwalk
  unfold replayJournal
  rw [Prog.bind_ok hscan]
  unfold walkJournal
  rw [if_neg hstart]
  have hcopies : inRecords (Record.copies env.jsb) 0 log.committed = log.copies env.jsb := rfl
  rw [hcopies] at hwalk
  cases happly : applyCopies (log.found env.jsb) (log.copies env.jsb) s.dev with
  | none =>
    rw [happly] at hwalk
    exact Prog.bind_abort hwalk _
  | some dev' =>
    rw [happly] at hwalk
    obtain ⟨used', _, hrun⟩ := hwalk
    -- at the sequence number the scan ended with, the walk stops
    have hstop : ∀ u : St, u.finalSeq = seqOf env.jsb t →
        walkLoop env true (f + 1) (seqOf env.jsb t) (pos env.jsb k) none u =
          some (.ok (none, seqOf env.jsb t), u) := by
      intro u hu
      rw [walkLoop, Prog.bind_ok (Prog.get_run u)]
      simp [hu, seqGeq_seqOf env.jsb hfew hfew]
    rw [hstop _ rfl] at hrun
    exact ⟨none, _, Prog.bind_ok hrun _, rfl⟩

theorem Log.Decided.copies_le (h : ∀ b, log.Decided jsb dev b) :
    ∀ c ∈ log.copies jsb, ∀ r, lastFound (log.found jsb) c.block = some r → c.txn ≤ r := by
  intro c hc r hr
  have hmem : c ∈ (log.copies jsb).filter fun d => decide (d.block = c.block) :=
    mem_filter.mpr ⟨hc, by simp⟩
  obtain ⟨l, hl⟩ := Option.isSome_iff_exists.mp (getLast?_isSome.mpr (ne_nil_of_mem hmem))
  calc c.txn ≤ l.txn := le_getLast?_filter (log.copies_sorted jsb) hl hc (by simp)
    _ ≤ r := (h c.block l hl).1 r hr

/-- If the replay gets through, a block holds what it should just if it is decided so. -/
theorem Log.decided_iff {dev' : Nat → Block}
    (h : applyCopies (log.found jsb) (log.copies jsb) dev = some dev') (b : Nat) :
    dev' b = log.expected jsb dev b ↔ log.Decided jsb dev b := by
  have hle := (applyCopies_isSome (log.copies jsb) dev).mp (Option.isSome_of_mem h)
  have hlastCopy : ((log.copies jsb).filter fun c => decide (c.block = b)).getLast? =
      log.lastCopy jsb b := rfl
  rw [applyCopies_block _ b h, Log.expected_eq, hlastCopy]
  unfold Log.Decided
  cases hlast : log.lastCopy jsb b with
  | none => cases lastFound (log.found jsb) b <;> simp
  | some c =>
    have hmem := mem_filter.mp (mem_of_getLast? hlast)
    have hblock : c.block = b := of_decide_eq_true hmem.2
    have hc := hle c hmem.1
    rw [hblock] at hc
    simp only [Option.some.injEq, forall_eq']
    cases hfound : lastFound (log.found jsb) b with
    | none =>
      cases hrev : log.revoked jsb c.txn b with
      | true => simp
      | false => simp
    | some r =>
      have hr : c.txn ≤ r := hc r hfound
      cases hrev : log.revoked jsb c.txn b with
      | true => simp [hr]
      | false => simp [hr, eq_comm]

/-- The walks end, and every block holds what the log says, just if every block is decided
    as it should be. -/
theorem replayJournal_expected_iff {env : Env} {s : St} {log : Log} {t fuel : Nat}
    (h : Ready env s log t) (hfuel : env.jsb.sMaxlen < fuel) :
    (∃ ret s', replayJournal fuel env s = some (.ok ret, s') ∧
      ∀ b, s'.dev b = log.expected env.jsb s.dev b) ↔ ∀ b, log.Decided env.jsb s.dev b := by
  have hrun := replayJournal_replays h hfuel
  cases happly : applyCopies (log.found env.jsb) (log.copies env.jsb) s.dev with
  | none =>
    rw [happly] at hrun
    constructor
    · rintro ⟨ret, s', hret, _⟩
      rw [hrun] at hret
      cases hret
    · intro hdec
      have hsome := (applyCopies_isSome _ s.dev).mpr (Log.Decided.copies_le hdec)
      rw [happly] at hsome
      cases hsome
  | some dev' =>
    rw [happly] at hrun
    obtain ⟨ret, s', hret, hdev⟩ := hrun
    constructor
    · rintro ⟨ret₂, s₂, hret₂, hexp⟩ b
      rw [hret] at hret₂
      cases hret₂
      rw [← Log.decided_iff happly b, ← hdev]
      exact hexp b
    · intro hdec
      refine ⟨ret, s', hret, fun b => ?_⟩
      rw [hdev]
      exact (Log.decided_iff happly b).mpr (hdec b)

/-- What a block with copies to apply held before does not matter. -/
theorem applyCopies_again {part : Nat → Block} (h : applyCopies found cs dev = some dev')
    (hpart : ∀ b, part b = dev b ∨ lastFound found b = none ∧ ∃ c ∈ cs, c.block = b) :
    applyCopies found cs part = some dev' := by
  -- getting through does not depend on the device
  obtain ⟨dev₂, h₂⟩ := Option.isSome_iff_exists.mp ((applyCopies_isSome cs part).mpr
    ((applyCopies_isSome cs dev).mp (Option.isSome_of_mem h)))
  rw [h₂, Option.some.injEq]
  funext b
  rw [applyCopies_block cs b h₂, applyCopies_block cs b h]
  rcases hpart b with hsame | ⟨hnone, c, hc, rfl⟩
  · rw [hsame]
  · have hmem : c ∈ cs.filter fun d => decide (d.block = c.block) :=
      mem_filter.mpr ⟨hc, by simp⟩
    obtain ⟨l, hl⟩ := Option.isSome_iff_exists.mp (getLast?_isSome.mpr (ne_nil_of_mem hmem))
    rw [hnone, hl]

/-- **A crash in the middle of a replay does no harm.** Whatever the blocks that the replay
    writes hold by then, replaying again leaves the same device. -/
theorem replayJournal_restart {s s' u : St} (h : Ready env s log t) (hu : Ready env u log t)
    (hfuel : env.jsb.sMaxlen < fuel) (hrun : replayJournal fuel env s = some (.ok ret, s'))
    (hdev : ∀ b, u.dev b = s.dev b ∨ lastFound (log.found env.jsb) b = none ∧
      ∃ c ∈ log.copies env.jsb, c.block = b) :
    ∃ ret u', replayJournal fuel env u = some (.ok ret, u') ∧ u'.dev = s'.dev := by
  have hfirst := replayJournal_replays h hfuel
  have hagain := replayJournal_replays hu hfuel
  cases happly : applyCopies (log.found env.jsb) (log.copies env.jsb) s.dev with
  | none =>
    rw [happly] at hfirst
    cases hfirst.symm.trans hrun
  | some dev' =>
    rw [happly] at hfirst
    obtain ⟨_, _, hrun', rfl⟩ := hfirst
    cases hrun.symm.trans hrun'
    rw [applyCopies_again happly hdev] at hagain
    exact hagain

/-! ### A block that is logged again -/

def ofWords (words : List Nat) : Block := fun i => words.getD i 0

/-- A log area of six blocks, in which the log starts with the fourth. -/
def smallEnv : Env where
  fs := .largeBlocks 1000
  jsb := ⟨512, 7, 1, 5, 4, false⟩
  phys := fun l => 100 + l

theorem smallEnv_ok : smallEnv.Ok where
  first_le := by decide
  start_lt := by decide
  start_pos := by decide
  sequence_lt := by decide
  phys_inj := fun _ _ _ _ _ _ h => Nat.add_left_cancel h

theorem smallEnv_not_inLog (h : b < 100) : ¬ smallEnv.InLog b := by
  rintro ⟨l, _, _, hl⟩
  have hphys : smallEnv.phys l = 100 + l := rfl
  omega

/-- A transaction that revokes the blocks 50 and 51, and one that logs block 50 again. -/
def reloggedDev (b : Nat) : Block := ofWords <|
  match b with
  | 104 => [jbd2MagicNumber, jbd2RevokeBlock, 5, 24, 50, 51]
  | 105 => [jbd2MagicNumber, jbd2CommitBlock, 5]
  | 106 => [jbd2MagicNumber, jbd2DescriptorBlock, 6, 50, jbd2FlagLastTag + jbd2FlagSameUuid]
  | 101 => [7]
  | 102 => [jbd2MagicNumber, jbd2CommitBlock, 6]
  | _ => []

def reloggedLog : Log where
  committed := [.revoke (reloggedDev (smallEnv.logBlkno 0)), .commit,
    .descriptor (reloggedDev (smallEnv.logBlkno 2)) [(3, reloggedDev (smallEnv.logBlkno 3))],
      .commit]
  tail := []
  complete := Or.inr rfl
  uncommitted := by simp

def unmarked (dev : Nat → Block) : St := ⟨dev, fun _ => false, fun _ => none, 0⟩

theorem reloggedLog_ready : Ready smallEnv (unmarked reloggedDev) reloggedLog 2 where
  ok := smallEnv_ok
  free := fun _ _ => rfl
  fresh := rfl
  log := by
    refine ⟨⟨5, 5, ?_, .nil 2 5, by decide, ?_⟩, by decide⟩
    · refine .revoke ⟨rfl, rfl, rfl⟩ ⟨by decide, by decide, by decide⟩ (.commit ⟨rfl, rfl, rfl⟩ ?_)
      refine .descriptor ⟨rfl, rfl, rfl⟩ (.last (Nat.le_of_ble_eq_true rfl) rfl rfl)
        (.cons (.nil 4)) ?_ (.commit ⟨rfl, rfl, rfl⟩ (.nil 2 5))
      intro p hp
      rw [mem_singleton.mp hp]
      exact smallEnv_not_inLog (by decide)
    · rintro _ ty ⟨hmagic, _⟩
      exact absurd hmagic (by decide)

/-- The second transaction is newer than the revoke entry, so the recovery does not
    return; block 50 should hold what it logged. -/
theorem replayJournal_relogged : Ready smallEnv (unmarked reloggedDev) reloggedLog 2 ∧
      (∀ fuel, 7 < fuel → replayJournal fuel smallEnv (unmarked reloggedDev) = none) ∧
      reloggedLog.expected smallEnv.jsb reloggedDev 50 0 = 7 := by
  refine ⟨reloggedLog_ready, fun fuel hfuel => ?_, by decide⟩
  exact replayJournal_replays reloggedLog_ready hfuel

/-! ### A log without revoke blocks -/

/-- A transaction that logs block 50, whose first word was escaped, and the descriptor of
    one that was not committed. -/
def loggedDev (b : Nat) : Block := ofWords <|
  match b with
  | 104 => [jbd2MagicNumber, jbd2DescriptorBlock, 5, 50,
      jbd2FlagLastTag + jbd2FlagSameUuid + jbd2FlagEscape]
  | 105 => [0, 7]
  | 106 => [jbd2MagicNumber, jbd2CommitBlock, 5]
  | 101 => [jbd2MagicNumber, jbd2DescriptorBlock, 6, 50, jbd2FlagLastTag + jbd2FlagSameUuid]
  | 102 => [8]
  | _ => []

def loggedLog : Log where
  committed := [.descriptor (loggedDev (smallEnv.logBlkno 0))
    [(3, loggedDev (smallEnv.logBlkno 1))],
    .commit]
  tail := [.descriptor (loggedDev (smallEnv.logBlkno 3)) [(3, loggedDev (smallEnv.logBlkno 4))]]
  complete := Or.inr rfl
  uncommitted := by simp

/-- The device after a replay that was interrupted: block 50 holds something else by now. -/
def tornDev (b : Nat) : Block := if b = 50 then ofWords [9] else loggedDev b

theorem loggedLog_ready (h : dev = loggedDev ∨ dev = tornDev) :
    Ready smallEnv (unmarked dev) loggedLog 1 where
  ok := smallEnv_ok
  free := fun _ _ => rfl
  fresh := rfl
  log := by
    have hout : ∀ k, ∀ p ∈ [(3, loggedDev (smallEnv.logBlkno k))], ∀ buf : Block, buf 3 = 50 →
        ¬ smallEnv.InLog (journalTagBlock smallEnv.jsb buf p.1) := by
      intro k p hp buf hbuf
      rw [mem_singleton.mp hp]
      exact smallEnv_not_inLog (lt_of_eq_of_lt hbuf (by decide))
    rcases h with rfl | rfl
    all_goals
      refine ⟨⟨3, 5, .descriptor ⟨rfl, rfl, rfl⟩ (.last (Nat.le_of_ble_eq_true rfl) rfl rfl)
          (.cons (.nil 2)) (fun p hp => hout 1 p hp _ rfl) (.commit ⟨rfl, rfl, rfl⟩ (.nil 1 3)),
        .descriptor ⟨rfl, rfl, rfl⟩ (.last (Nat.le_of_ble_eq_true rfl) rfl rfl)
          (.cons (.nil 5)) (fun p hp => hout 4 p hp _ rfl) (.nil 1 5), by decide, ?_⟩, by decide⟩
      rintro _ ty ⟨hmagic, _⟩
      exact absurd hmagic (by decide)

theorem replayJournal_logged :
    ∃ ret s', replayJournal 8 smallEnv (unmarked loggedDev) = some (.ok ret, s') ∧
      ∀ b, s'.dev b = loggedLog.expected smallEnv.jsb loggedDev b := by
  refine (replayJournal_expected_iff (loggedLog_ready (.inl rfl)) (by decide)).mpr ?_
  intro b c _
  refine ⟨?_, Or.inl rfl⟩
  intro r hr
  cases hr

/-- Block 50 holds neither what it held before the replay nor what the replay writes. -/
theorem replayJournal_restart_logged :
    ∃ ret s', replayJournal 8 smallEnv (unmarked loggedDev) = some (.ok ret, s') ∧
      ∃ ret u', replayJournal 8 smallEnv (unmarked tornDev) = some (.ok ret, u') ∧
        u'.dev = s'.dev := by
  have hready := loggedLog_ready (.inl rfl)
  obtain ⟨ret, s', hrun, -⟩ : ∃ ret s', replayJournal 8 smallEnv (unmarked loggedDev) =
      some (.ok ret, s') ∧ s'.dev = _ := replayJournal_replays hready (by decide)
  refine ⟨ret, s', hrun, replayJournal_restart hready (loggedLog_ready (.inr rfl)) (by decide)
    hrun fun b => ?_⟩
  by_cases hb : b = 50
  · exact .inr ⟨rfl, _, mem_cons_self, hb.symm⟩
  · exact .inl (if_neg hb)

end Ocfs2Tools.Journal
