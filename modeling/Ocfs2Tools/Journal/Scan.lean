import Ocfs2Tools.Journal.Log

/-!
# The scan walk

The first walk goes over all records of a log, the uncommitted ones too. It stops with
the sequence number after the last commit, the revoke entries it found are in the tree,
and of the log's blocks it has marked only those with a header.
-/

namespace Ocfs2Tools.Journal

open List Prog

variable {i j b t p blkoff seq blk ty k t' k' : Nat} {env : Env} {found : List (Nat × Nat)}
  {buf : Block} {ps : List Nat} {used : Nat → Bool} {s s' : St} {recover : Bool} {dev : Nat → Block}
  {rs : List Record}

/-! ### Sequence numbers -/

theorem seqGt_seqOf (jsb : Jsb) (hi : i < 2 ^ 31) (hj : j < 2 ^ 31) :
    seqGt (seqOf jsb i) (seqOf jsb j) = decide (j < i) := by
  unfold seqGt seqOf
  rw [Int.bmod_def, decide_eq_decide]
  omega

theorem seqGeq_seqOf (jsb : Jsb) (hi : i < 2 ^ 31) (hj : j < 2 ^ 31) :
    seqGeq (seqOf jsb i) (seqOf jsb j) = decide (j ≤ i) := by
  unfold seqGeq seqOf
  rw [Int.bmod_def, decide_eq_decide]
  omega

theorem seqOf_succ (jsb : Jsb) (t : Nat) : (seqOf jsb t + 1) % 2 ^ 32 = seqOf jsb (t + 1) := by
  unfold seqOf
  omega

theorem Env.Ok.seqOf_zero (ok : env.Ok) : seqOf env.jsb 0 = env.jsb.sSequence :=
  Nat.mod_eq_of_lt ok.sequence_lt

/-! ### The revoke entries -/

/-- The revoke tree that holds the entries found so far. -/
def tableOf (jsb : Jsb) (found : List (Nat × Nat)) : Nat → Option Nat :=
  fun b => (lastFound found b).map (seqOf jsb)

theorem lastFound_append_one (found : List (Nat × Nat)) (t b c : Nat) :
    lastFound (found ++ [(t, b)]) c = if b = c then some t else lastFound found c := by
  unfold lastFound
  by_cases h : b = c <;> simp [h]

theorem lastFound_mem (h : lastFound found b = some t) : (t, b) ∈ found := by
  unfold lastFound at h
  rw [Option.map_eq_some_iff] at h
  obtain ⟨r, hr, rfl⟩ := h
  have hmem := mem_of_getLast? hr
  rw [mem_filter, decide_eq_true_eq] at hmem
  rw [← hmem.2]
  exact hmem.1

theorem revokeInsert_tableOf (jsb : Jsb) (b : Nat) (ht : t < 2 ^ 31) (hle : ∀ r ∈ found, r.1 ≤ t) :
    revokeInsert (tableOf jsb found) b (seqOf jsb t) = tableOf jsb (found ++ [(t, b)]) := by
  funext c
  unfold revokeInsert tableOf
  rw [lastFound_append_one]
  by_cases hc : c = b
  · subst hc
    rw [if_pos rfl, if_pos rfl]
    cases hl : lastFound found c with
    | none => rfl
    | some r =>
      -- an entry found before is not newer, and an equal one keeps the same number
      have hr : r ≤ t := hle _ (lastFound_mem hl)
      simp only [Option.map_some, seqGt_seqOf jsb ht (by omega : r < 2 ^ 31), decide_eq_true_eq]
      split
      · rfl
      · have heq : r = t := by omega
        rw [heq]
  · rw [if_neg hc, if_neg (fun h => hc h.symm)]

theorem foldl_revokeInsert (jsb : Jsb) (ht : t < 2 ^ 31) (bs : List Nat) :
    ∀ found : List (Nat × Nat), (∀ r ∈ found, r.1 ≤ t) →
      bs.foldl (fun tab b => revokeInsert tab b (seqOf jsb t)) (tableOf jsb found) =
        tableOf jsb (found ++ bs.map fun b => (t, b)) := by
  induction bs with
  | nil => simp
  | cons b bs ih =>
    intro found hle
    rw [foldl_cons, revokeInsert_tableOf jsb b ht hle, ih]
    · simp
    · exact forall_mem_append.mpr ⟨hle, forall_mem_singleton.mpr le_rfl⟩

/-! ### Tags -/

theorem journalTagWords_pos (jsb : Jsb) : 0 < journalTagWords jsb := by
  unfold journalTagWords
  split <;> decide

theorem le_nextTag (jsb : Jsb) (buf : Block) (p : Nat) :
    p + journalTagWords jsb ≤ nextTag jsb buf p := Nat.le_add_right _ _

theorem Tags.length_fits (h : Tags env buf p ps) :
    (p + ps.length * journalTagWords env.jsb) * 4 ≤ env.jsb.sBlocksize := by
  induction h with
  | last hfits _ _ => simpa [TagFits] using hfits
  | @more p ps _ _ _ _ ih =>
    have hnext := le_nextTag env.jsb buf p
    rw [length_cons, Nat.succ_mul]
    omega

theorem Tags.length_le (h : Tags env buf p ps) : ps.length ≤ env.jsb.sBlocksize := by
  have hfits := h.length_fits
  have hmul := Nat.le_mul_of_pos_right ps.length (journalTagWords_pos env.jsb)
  omega

theorem countLoop_tags (h : Tags env buf p ps) :
    ∀ fuel nr, ps.length ≤ fuel → countLoop env buf fuel p nr = .ok (nr + ps.length) := by
  induction h with
  | last hfits hrange hlast =>
    intro fuel nr hfuel
    obtain ⟨f, rfl⟩ := Nat.exists_eq_add_of_le' hfuel
    show countLoop env buf (f + 1) _ nr = _
    unfold countLoop
    rw [if_pos (show _ ≤ _ from hfits), hrange, hlast]
    rfl
  | more hfits hrange hlast _ ih =>
    intro fuel nr hfuel
    obtain ⟨f, rfl⟩ := Nat.exists_eq_add_of_le' hfuel
    rw [length_cons, ← add_assoc]
    unfold countLoop
    rw [if_pos (show _ ≤ _ from hfits), hrange, hlast]
    simp only [Bool.false_eq_true, if_false]
    rw [ih _ (nr + 1) (Nat.le_add_left _ _)]
    congr 1
    omega

theorem countTags_tags (h : Tags env buf 3 ps) : countTags env buf = .ok ps.length := by
  have hfits : (3 + journalTagWords env.jsb) * 4 ≤ env.jsb.sBlocksize := by
    cases h with
    | last hfits _ _ => exact hfits
    | more hfits _ _ _ => exact hfits
  unfold countTags
  rw [if_neg (by omega), countLoop_tags h _ _ h.length_le, zero_add]

/-! ### One round of the walk -/

def mark (used : Nat → Bool) (blkno : Nat) : Nat → Bool :=
  fun b => if b = blkno then true else used b

theorem mark_other {blkno : Nat} (h : b ≠ blkno) : mark used blkno b = used b := if_neg h

theorem readJournalBlock_free (h : s.used (env.phys blkoff) = false) :
    readJournalBlock env blkoff true s =
      some (.ok (s.dev (env.phys blkoff)), { s with used := mark s.used (env.phys blkoff) }) := by
  simp only [readJournalBlock, if_true, h, Bool.false_eq_true, if_false]
  rfl

theorem readJournalBlock_used (h : s.used (env.phys blkoff) = true) :
    readJournalBlock env blkoff true s =
      some (.error .duplicateBlock, { s with used := mark s.used (env.phys blkoff) }) := by
  simp only [readJournalBlock, if_true, h]
  rfl

theorem walkLoop_header (fuel : Nat) (hgo : (recover && seqGeq seq s.finalSeq) = false)
    (hread : readJournalBlock env blk (!recover) s = some (.ok buf, s'))
      (hbuf : Header buf ty seq) :
    walkLoop env recover (fuel + 1) seq blk none s =
      (walkBlock env recover buf seq (jwrap env.jsb (blk + 1)) none >>= fun r =>
        walkLoop env recover fuel r.1 r.2.1 r.2.2) s' := by
  have hret : (!recover && (none : Option JournalError).isSome) = false := by simp
  rw [walkLoop, bind_ok (get_run s)]
  simp only [hret, Bool.false_eq_true, if_false, hgo]
  rw [bind_ok (attempt_run hread)]
  simp only [hbuf.1, ne_eq, not_true_eq_false, if_false, hbuf.2.2]

theorem walkBlock_scan_descriptor (hbuf : Header buf jbd2DescriptorBlock seq)
    (htags : Tags env buf 3 ps) (s : St) : walkBlock env false buf seq blk none s =
      some (.ok (seq, jwrap env.jsb (blk + ps.length), none), s) := by
  unfold walkBlock
  rw [if_pos hbuf.2.1, countTags_tags htags]
  rfl

theorem walkBlock_commit (hbuf : Header buf jbd2CommitBlock seq) (s : St) :
    walkBlock env recover buf seq blk none s = some (.ok ((seq + 1) % 2 ^ 32, blk, none), s) := by
  unfold walkBlock
  rw [hbuf.2.1]
  rfl

theorem walkBlock_revoke (hbuf : Header buf jbd2RevokeBlock seq) (s : St) :
    walkBlock env recover buf seq blk none s = some (.ok (seq, blk, none), { s with
        revoke := (revokeRecords env.jsb buf).foldl (fun t b => revokeInsert t b seq)
          s.revoke }) := by
  unfold walkBlock
  rw [hbuf.2.1]
  rfl

/-! ### Records -/

theorem RecordsAt.length_le (h : RecordsAt env dev t k rs t' k') : k + rs.length ≤ k' := by
  induction h with
  | nil t k => exact le_rfl
  | descriptor _ _ _ _ _ ih => simp only [length_cons]; omega
  | revoke _ _ _ ih => simp only [length_cons]; omega
  | commit _ _ ih => simp only [length_cons]; omega

theorem RecordsAt.eq_of_nil (h : RecordsAt env dev t k [] t' k') : k' = k := by
  cases h
  rfl

theorem RecordsAt.txn_le (h : RecordsAt env dev t k rs t' k') : t ≤ t' := by
  induction h with
  | nil t k => exact le_rfl
  | descriptor _ _ _ _ _ ih => exact ih
  | revoke _ _ _ ih => exact ih
  | commit _ _ ih => omega

theorem RecordsAt.append {t'' k'' : Nat} {qs : List Record} (h : RecordsAt env dev t k rs t' k')
    (h' : RecordsAt env dev t' k' qs t'' k'') : RecordsAt env dev t k (rs ++ qs) t'' k'' := by
  induction h with
  | nil t k => exact h'
  | descriptor h1 h2 h3 h4 _ ih => exact .descriptor h1 h2 h3 h4 (ih h')
  | revoke h1 h2 _ ih => exact .revoke h1 h2 (ih h')
  | commit h1 _ ih => exact .commit h1 (ih h')

theorem inRecords_append {α : Type} (f : Nat → Record → List α) (h : RecordsAt env dev t k rs t' k')
    (qs : List Record) : inRecords f t (rs ++ qs) = inRecords f t rs ++ inRecords f t' qs := by
  induction h with
  | nil t k => rfl
  | descriptor _ _ _ _ _ ih => simp only [cons_append, inRecords, ih, append_assoc]
  | revoke _ _ _ ih => simp only [cons_append, inRecords, ih, append_assoc]
  | commit _ _ ih => simp only [cons_append, inRecords, ih]

/-- The data blocks of the records from position `k` on are not marked. -/
def DataFree (env : Env) (used : Nat → Bool) : Nat → List Record → Prop
  | _, [] => True
  | k, .descriptor _ logged :: rest =>
    (∀ j, k < j → j ≤ k + logged.length → used (env.logBlkno j) = false) ∧
      DataFree env used (k + 1 + logged.length) rest
  | k, _ :: rest => DataFree env used (k + 1) rest

theorem DataFree.congr {used' : Nat → Bool} (h : RecordsAt env dev t k rs t' k')
    (hsame : ∀ j, k ≤ j → j < k' → used' (env.logBlkno j) = used (env.logBlkno j)) :
    DataFree env used k rs → DataFree env used' k rs := by
  induction h with
  | nil t k => exact id
  | @descriptor t k t' k' logged rest h1 h2 h3 h4 hrest ih =>
    rintro ⟨hfree, hfrees⟩
    have hlen := hrest.length_le
    refine ⟨?_, ih (fun j hj hj' => hsame j (by omega) hj') hfrees⟩
    intro j hj hj'
    rw [hsame j (by omega) (by omega)]
    exact hfree j hj hj'
  | revoke _ _ _ ih => exact ih (fun j hj hj' => hsame j (by omega) hj')
  | commit _ _ ih => exact ih (fun j hj hj' => hsame j (by omega) hj')

theorem DataFree.of_append {qs : List Record} :
    ∀ {rs k}, DataFree env used k (rs ++ qs) → DataFree env used k rs
  | [], _, _ => trivial
  | .descriptor _ _ :: _, _, h => ⟨h.1, DataFree.of_append h.2⟩
  | .revoke _ :: _, _, h => DataFree.of_append (k := _ + 1) h
  | .commit :: _, _, h => DataFree.of_append (k := _ + 1) h

section Walk

variable {env : Env} (ok : env.Ok)
include ok

theorem Env.Ok.mark_logBlkno (hj : j < area env.jsb) (hk : k < area env.jsb) (hne : j ≠ k) :
    mark used (env.logBlkno k) (env.logBlkno j) = used (env.logBlkno j) :=
  mark_other fun h => hne (ok.logBlkno_inj hj hk h)

theorem Env.Ok.free_mark {k₁ : Nat} (hk : k < k₁)
    (hfree : ∀ j, k ≤ j → j < area env.jsb → used (env.logBlkno j) = false) :
    ∀ j, k₁ ≤ j → j < area env.jsb → mark used (env.logBlkno k) (env.logBlkno j) = false := by
  intro j hj hj'
  rw [ok.mark_logBlkno hj' (by omega) (by omega)]
  exact hfree j (by omega) hj'

theorem scan_round {seq' n : Nat} (fuel : Nat) (hfree : s.used (env.logBlkno k) = false)
    (hbuf : Header (s.dev (env.logBlkno k)) ty seq)
    (hblock : walkBlock env false (s.dev (env.logBlkno k)) seq (pos env.jsb (k + 1)) none
      { s with used := mark s.used (env.logBlkno k) } =
        some (.ok (seq', pos env.jsb n, none), s')) :
    walkLoop env false (fuel + 1) seq (pos env.jsb k) none s =
      walkLoop env false fuel seq' (pos env.jsb n) none s' := by
  rw [walkLoop_header fuel rfl (readJournalBlock_free hfree) hbuf, jwrap_pos ok]
  exact bind_ok hblock _

end Walk

/-- The scan gets from one position and transaction to another. It leaves the data blocks of
    the records, and all blocks of the log outside of them, unmarked. -/
def ScanTo (env : Env) (s : St) (found : List (Nat × Nat)) (t k : Nat) (rs : List Record)
    (t' k' : Nat) : Prop :=
  ∃ used', (∀ j, j < area env.jsb → (j < k ∨ k' ≤ j) →
      used' (env.logBlkno j) = s.used (env.logBlkno j)) ∧
    DataFree env used' k rs ∧ (rs ≠ [] → used' (env.logBlkno k) = true) ∧
    ∀ fuel, walkLoop env false (fuel + rs.length) (seqOf env.jsb t) (pos env.jsb k) none s =
      walkLoop env false fuel (seqOf env.jsb t') (pos env.jsb k') none { s with
        used := used'
        revoke := tableOf env.jsb (found ++ inRecords (Record.found env.jsb) t rs) }

theorem ScanTo.cons (ok : env.Ok) {r : Record} {rest : List Record} (more : List (Nat × Nat))
    (t₁ k₁ : Nat)
    (hround : ∀ fuel, walkLoop env false (fuel + 1) (seqOf env.jsb t) (pos env.jsb k) none s =
      walkLoop env false fuel (seqOf env.jsb t₁) (pos env.jsb k₁) none
        { s with used := mark s.used (env.logBlkno k), revoke := tableOf env.jsb (found ++ more) })
    (hmore : inRecords (Record.found env.jsb) t (r :: rest) =
      more ++ inRecords (Record.found env.jsb) t₁ rest)
    (hfree : ∀ j, k ≤ j → j < area env.jsb → s.used (env.logBlkno j) = false)
    (hk : k < k₁) (hk' : k₁ ≤ k') (harea : k' ≤ area env.jsb)
    (hdata : ∀ used : Nat → Bool, (∀ j, k < j → j < k₁ → used (env.logBlkno j) = false) →
      DataFree env used k₁ rest → DataFree env used k (r :: rest))
    (hrest : ScanTo env
      { s with used := mark s.used (env.logBlkno k), revoke := tableOf env.jsb (found ++ more) }
      (found ++ more) t₁ k₁ rest t' k') : ScanTo env s found t k (r :: rest) t' k' := by
  obtain ⟨used', hsame, hdfree, _, hwalk⟩ := hrest
  -- before `k₁` the rest of the scan marks nothing
  have hbefore : ∀ j, j < k₁ → used' (env.logBlkno j) = mark s.used (env.logBlkno k)
      (env.logBlkno j) :=
    fun j hj => hsame j (by omega) (Or.inl hj)
  refine ⟨used', ?_, ?_, ?_, ?_⟩
  · intro j hj hout
    rw [hsame j hj (by omega)]
    exact ok.mark_logBlkno hj (by omega) (by omega)
  · apply hdata used' _ hdfree
    intro j hj hj'
    rw [hbefore j hj', ok.mark_logBlkno (by omega) (by omega) (by omega)]
    exact hfree j (by omega) (by omega)
  · intro _
    rw [hbefore k hk]
    exact if_pos rfl
  · intro fuel
    rw [length_cons, ← add_assoc, hround, hwalk fuel, hmore, append_assoc]

theorem scan_records (ok : env.Ok) (h : RecordsAt env dev t k rs t' k') (hk : k' ≤ area env.jsb)
    (hfew : t' < 2 ^ 31) :
    ∀ {s} found, s.dev = dev → (∀ j, k ≤ j → j < area env.jsb → s.used (env.logBlkno j) = false) →
      s.revoke = tableOf env.jsb found → (∀ r ∈ found, r.1 ≤ t) →
      ScanTo env s found t k rs t' k' := by
  induction h with
  | nil t k =>
    intro s found _ _ hrev _
    refine ⟨s.used, fun _ _ _ => rfl, trivial, fun h => absurd rfl h, fun fuel => ?_⟩
    simp only [inRecords, append_nil, ← hrev, length_nil, add_zero]
  | @descriptor t k t' k' logged rest hbuf htags hdata hout hrest ih =>
    intro s found hdev hfree hrev hfound
    subst hdev
    have hlen := hrest.length_le
    have hblock : ∀ u, walkBlock env false (s.dev (env.logBlkno k)) (seqOf env.jsb t)
        (pos env.jsb (k + 1)) none u =
          some (.ok (seqOf env.jsb t, pos env.jsb (k + 1 + logged.length), none), u) := by
      intro u
      rw [walkBlock_scan_descriptor hbuf htags, jwrap_pos ok, length_map]
    refine ScanTo.cons ok [] t (k + 1 + logged.length) (fun fuel => ?_) rfl hfree (by omega)
      (by omega) hk (fun used hu hrest' => ⟨fun j hj hj' => hu j hj (by omega), hrest'⟩) ?_
    · rw [scan_round ok fuel (hfree k le_rfl (by omega)) hbuf (hblock _), append_nil, ← hrev]
    · rw [append_nil]
      exact ih hk hfew _ rfl (ok.free_mark (by omega) hfree) rfl hfound
  | @revoke t k t' k' rest hbuf hcount hrest ih =>
    intro s found hdev hfree hrev hfound
    subst hdev
    have hlen := hrest.length_le
    have htxn := hrest.txn_le
    have hfold := foldl_revokeInsert env.jsb (by omega)
      (revokeRecords env.jsb (s.dev (env.logBlkno k))) found hfound
    refine ScanTo.cons ok
      ((revokeRecords env.jsb (s.dev (env.logBlkno k))).map fun b => (t, b)) t (k + 1)
      (fun fuel => ?_) rfl hfree (by omega) (by omega) hk (fun _ _ hrest' => hrest') ?_
    · rw [scan_round ok fuel (hfree k le_rfl (by omega)) hbuf (walkBlock_revoke hbuf _)]
      simp only [hrev, hfold]
    · exact ih hk hfew _ rfl (ok.free_mark (by omega) hfree) rfl
        (forall_mem_append.mpr ⟨hfound, forall_mem_map.mpr fun _ _ => le_rfl⟩)
  | @commit t k t' k' rest hbuf hrest ih =>
    intro s found hdev hfree hrev hfound
    subst hdev
    have hlen := hrest.length_le
    refine ScanTo.cons ok [] (t + 1) (k + 1) (fun fuel => ?_) rfl hfree (by omega) (by omega) hk
      (fun _ _ hrest' => hrest') ?_
    · rw [scan_round ok fuel (hfree k le_rfl (by omega)) hbuf (walkBlock_commit hbuf _),
        seqOf_succ, append_nil, ← hrev]
    · rw [append_nil]
      exact ih hk hfew _ rfl (ok.free_mark (by omega) hfree) rfl
        fun r hr => Nat.le_succ_of_le (hfound r hr)

/-! ### The whole scan -/

/-- At the end of the log the scan stops: it finds no header that goes on with the log, or
    it is back at a block it has marked. -/
theorem scan_end (fuel : Nat)
    (h : s.used (env.phys blk) = true ∨ ∀ ty, ¬ Header (s.dev (env.phys blk)) ty seq) :
    ∃ ret, walkLoop env false (fuel + 1) seq blk none s =
      some (.ok (ret, seq), { s with used := mark s.used (env.phys blk) }) := by
  rw [walkLoop, bind_ok (get_run s)]
  simp only [Bool.not_false, Option.isSome_none, Bool.and_false, Bool.false_and,
    Bool.false_eq_true, if_false]
  cases hused : s.used (env.phys blk) with
  | true =>
    rw [bind_ok (attempt_run (readJournalBlock_used hused))]
    exact ⟨_, rfl⟩
  | false =>
    rw [bind_ok (attempt_run (readJournalBlock_free hused))]
    rw [hused] at h
    have hno := h.resolve_left Bool.false_ne_true
    refine ⟨none, ?_⟩
    by_cases hmagic : s.dev (env.phys blk) 0 = jbd2MagicNumber
    · have hseq : s.dev (env.phys blk) 2 ≠ seq := fun hseq => hno _ ⟨hmagic, rfl, hseq⟩
      simp only [hmagic, ne_eq, not_true_eq_false, if_false, hseq, not_false_eq_true, if_true]
      rfl
    · simp only [hmagic, ne_eq, not_false_eq_true, if_true]
      rfl

theorem scan_log (ok : env.Ok) {log : Log} {fuel : Nat} (h : LogAt env s.dev log t)
    (hfree : ∀ j, j < area env.jsb → s.used (env.logBlkno j) = false)
    (hrev : s.revoke = fun _ => none) (hfuel : env.jsb.sMaxlen < fuel) :
    ∃ ret used', DataFree env used' 0 log.committed ∧
      walkJournal fuel env false s = some (.ok ret, { s with
        used := used'
        revoke := tableOf env.jsb (log.found env.jsb)
        finalSeq := seqOf env.jsb t }) := by
  obtain ⟨k, n, hcommitted, htail, hn, hend⟩ := h.holds
  have hall := hcommitted.append htail
  obtain ⟨used', hsame, hdata, hmark, hwalk⟩ := scan_records ok hall hn h.few [] rfl
    (fun j _ hj => hfree j hj) hrev (by simp)
  -- the walk needs a round for every record and one for the end
  have hlen := hall.length_le
  have harea : area env.jsb ≤ env.jsb.sMaxlen := Nat.sub_le _ _
  obtain ⟨f, hf⟩ := Nat.exists_eq_add_of_le
    (by omega : (log.committed ++ log.tail).length + 1 ≤ fuel)
  have hwrap : n = area env.jsb → used' (env.logBlkno n) = true := by
    rintro rfl
    rw [env.logBlkno_area]
    apply hmark
    intro hnil
    rw [hnil] at hall
    have hpos := ok.area_pos
    have hzero := hall.eq_of_nil
    omega
  have hstop : used' (env.logBlkno n) = true ∨
      ∀ ty, ¬ Header (s.dev (env.logBlkno n)) ty (seqOf env.jsb t) :=
    (Nat.lt_or_eq_of_le hn).elim (fun hlt => Or.inr (hend hlt)) (fun heq => Or.inl (hwrap heq))
  obtain ⟨ret, hret⟩ := scan_end (s := { s with
      used := used'
      revoke := tableOf env.jsb ([] ++ inRecords (Record.found env.jsb) 0
        (log.committed ++ log.tail)) }) f hstop
  refine ⟨ret, mark used' (env.logBlkno n), ?_, ?_⟩
  · -- the block after the log is none of its data blocks, or was marked before
    have hk := htail.length_le
    apply DataFree.congr hcommitted _ hdata.of_append
    intro j _ hj
    rcases Nat.lt_or_eq_of_le hn with hlt | heq
    · exact ok.mark_logBlkno (by omega) hlt (by omega)
    · unfold mark
      split
      · rename_i hblk
        rw [hblk, hwrap heq]
      · rfl
  · have hloop := (hwalk (f + 1)).trans hret
    rw [ok.seqOf_zero, ok.pos_zero, show f + 1 + (log.committed ++ log.tail).length = fuel by omega]
      at hloop
    unfold walkJournal
    rw [if_neg (Nat.pos_iff_ne_zero.mp ok.start_pos), bind_ok hloop]
    rfl

end Ocfs2Tools.Journal
