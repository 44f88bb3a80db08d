import Ocfs2Tools.Journal.Scan
import Ocfs2Tools.Lib.Lists

/-!
# The recovery walk

The second walk applies the copies of the committed transactions one after the other.
`applyCopies` is what that comes to: a copy is written if no revoke entry was found for its
block, it is skipped if the last entry is not older, and otherwise the walk never returns.
A block then holds its last copy or what it held before, and the replay does what the log
means just if every block is decided as it should be.
-/

namespace Ocfs2Tools.Journal

open List Prog

variable {found : List (Nat × Nat)} {env : Env} {cs : List Copy} {dev : Nat → Block} {α : Type}
  {k k' t t' : Nat} {s : St} {rs : List Record}

/-! ### Applying copies -/

def putBlock (dev : Nat → Block) (blkno : Nat) (buf : Block) : Nat → Block :=
  fun b => if b = blkno then buf else dev b

/-- The copies replayed in order, with the entries that were found. -/
def applyCopies (found : List (Nat × Nat)) : List Copy → (Nat → Block) → Option (Nat → Block)
  | [], dev => some dev
  | c :: cs, dev =>
    match lastFound found c.block with
    | none => applyCopies found cs (putBlock dev c.block c.content)
    | some r => if r < c.txn then none else applyCopies found cs dev

theorem applyCopies_append (found : List (Nat × Nat)) (cs ds : List Copy) :
    ∀ dev, applyCopies found (cs ++ ds) dev =
      (applyCopies found cs dev).bind (applyCopies found ds) := by
  induction cs with
  | nil => exact fun _ => rfl
  | cons c cs ih =>
    intro dev
    rw [cons_append, applyCopies, applyCopies]
    split
    · exact ih _
    · split
      · rfl
      · exact ih _

theorem applyCopies_isSome (cs : List Copy) : ∀ dev, (applyCopies found cs dev).isSome ↔
      ∀ c ∈ cs, ∀ r, lastFound found c.block = some r → c.txn ≤ r := by
  induction cs with
  | nil => simp [applyCopies]
  | cons c cs ih =>
    intro dev
    rw [applyCopies, forall_mem_cons]
    cases hc : lastFound found c.block with
    | none =>
      simp only [reduceCtorEq, false_implies, implies_true, true_and]
      exact ih _
    | some r =>
      by_cases hr : r < c.txn
      · simp only [hr, if_true, Option.isSome_none, Bool.false_eq_true, Option.some.injEq,
          forall_eq', false_iff, not_and]
        omega
      · simp only [hr, if_false, Option.some.injEq, forall_eq']
        rw [ih dev]
        exact ⟨fun h => ⟨by omega, h⟩, fun h => h.2⟩

theorem applyCopies_block (cs : List Copy) (b : Nat) :
    ∀ {dev dev'}, applyCopies found cs dev = some dev' →
      dev' b = match lastFound found b, (cs.filter fun c => decide (c.block = b)).getLast? with
        | none, some c => c.content
        | _, _ => dev b := by
  induction cs with
  | nil =>
    intro dev dev' h
    cases h
    cases lastFound found b <;> rfl
  | cons c cs ih =>
    intro dev dev' h
    rw [applyCopies] at h
    cases hc : lastFound found c.block with
    | none =>
      rw [hc] at h
      rw [ih h]
      by_cases hb : c.block = b
      · subst hb
        simp only [decide_true, filter_cons_of_pos, getLast?_cons, hc]
        cases (cs.filter fun d => decide (d.block = c.block)).getLast? with
        | none => exact if_pos rfl
        | some d => rfl
      · rw [filter_cons_of_neg (by simpa using hb), putBlock, if_neg (fun e => hb e.symm)]
    | some r =>
      rw [hc] at h
      simp only at h
      split at h
      · cases h
      rw [ih h]
      by_cases hb : c.block = b
      · subst hb
        rw [hc]
      · rw [filter_cons_of_neg (by simpa using hb)]

theorem applyCopies_log (ok : env.Ok) {dev' : Nat → Block}
    (h : applyCopies found cs dev = some dev') (hout : ∀ c ∈ cs, ¬ env.InLog c.block) (j : Nat) :
    dev' (env.logBlkno j) = dev (env.logBlkno j) := by
  have hnone : (cs.filter fun c => decide (c.block = env.logBlkno j)) = [] := by
    rw [filter_eq_nil_iff]
    intro c hc hblock
    rw [decide_eq_true_eq] at hblock
    exact hout c hc (hblock ▸ ok.logBlkno_inLog j)
  rw [applyCopies_block cs _ h, hnone]
  cases lastFound found (env.logBlkno j) <;> rfl

/-- A part of the walk that starts in `s` replays `cs`: it never returns, or goes on as `rest` in a
    state with the copies applied, and with nothing marked from position `k` on. -/
def Replays {α : Type} (env : Env) (found : List (Nat × Nat)) (cs : List Copy) (k : Nat) (s : St)
    (run : Option α) (rest : St → Option α) : Prop :=
  match applyCopies found cs s.dev with
  | none => run = none
  | some dev' => ∃ used', (∀ j, k ≤ j → j < area env.jsb →
      used' (env.logBlkno j) = s.used (env.logBlkno j)) ∧
      run = rest { s with dev := dev', used := used' }

theorem Replays.refl (rest : St → Option α) : Replays env found [] k s (rest s) rest :=
  ⟨s.used, fun _ _ _ => rfl, rfl⟩

theorem Replays.bind {β : Type} {m : J α} {a : α}
    (h : Replays env found cs k s (m s) (fun s' => some (.ok a, s'))) (f : α → J β) :
    Replays env found cs k s ((m >>= f) s) (f a) := by
  unfold Replays at h ⊢
  cases hcs : applyCopies found cs s.dev with
  | none =>
    rw [hcs] at h
    exact bind_abort h f
  | some dev' =>
    rw [hcs] at h
    obtain ⟨used', hsame, hrun⟩ := h
    exact ⟨used', hsame, bind_ok hrun f⟩

theorem Replays.append {ds : List Copy} {run : Option α} {mid rest : St → Option α} (hk : k ≤ k')
    (h : Replays env found cs k s run mid)
    (h' : ∀ dev' used', applyCopies found cs s.dev = some dev' →
      (∀ j, k ≤ j → j < area env.jsb → used' (env.logBlkno j) = s.used (env.logBlkno j)) →
      Replays env found ds k' { s with dev := dev', used := used' }
        (mid { s with dev := dev', used := used' }) rest) :
    Replays env found (cs ++ ds) k' s run rest := by
  unfold Replays at h ⊢
  rw [applyCopies_append]
  cases hcs : applyCopies found cs s.dev with
  | none =>
    rw [hcs] at h
    exact h
  | some dev' =>
    rw [hcs] at h
    obtain ⟨used', hsame, hrun⟩ := h
    have hnext := h' dev' used' hcs hsame
    unfold Replays at hnext
    rw [Option.bind_some]
    cases hds : applyCopies found ds dev' with
    | none =>
      rw [hds] at hnext
      exact hrun.trans hnext
    | some dev'' =>
      rw [hds] at hnext
      obtain ⟨used'', hsame', hrun'⟩ := hnext
      refine ⟨used'', fun j hj hj' => ?_, hrun.trans hrun'⟩
      rw [hsame' j hj hj']
      exact hsame j (by omega) hj'

/-! ### Replaying one descriptor block -/

section Recover

variable {env : Env} (ok : env.Ok) {found : List (Nat × Nat)} {t : Nat}
  (hfound : ∀ r ∈ found, r.1 < 2 ^ 31) (ht : t < 2 ^ 31) {buf : Block}

include hfound ht in
theorem revokeThisBlock_eq (hrev : s.revoke = tableOf env.jsb found) (b : Nat) :
    revokeThisBlock b (seqOf env.jsb t) s =
      match lastFound found b with
      | none => some (.ok false, s)
      | some r => if r < t then none else some (.ok true, s) := by
  unfold revokeThisBlock
  rw [hrev]
  unfold tableOf
  cases hb : lastFound found b with
  | none => rfl
  | some r =>
    simp only [Option.map_some]
    rw [seqGt_seqOf env.jsb ht (hfound _ (lastFound_mem hb))]
    by_cases hr : r < t <;> simp [hr]

def copyOf (jsb : Jsb) (t : Nat) (buf : Block) (p : Nat × Block) : Copy :=
  ⟨t, journalTagBlock jsb buf p.1, unescape buf p.1 p.2⟩

include ok hfound ht

theorem replayTag_replays (buf : Block) (p : Nat) (hrev : s.revoke = tableOf env.jsb found)
    (hk : k < area env.jsb) (hfree : s.used (env.logBlkno k) = false)
    (rest : Option JournalError → J α) :
    Replays env found [copyOf env.jsb t buf (p, s.dev (env.logBlkno k))] (k + 1) s
      ((replayTag env buf (seqOf env.jsb t) p (pos env.jsb k) none >>= rest) s) (rest none) := by
  have hlook := revokeThisBlock_eq hfound ht hrev (journalTagBlock env.jsb buf p)
  unfold Replays
  simp only [applyCopies, copyOf]
  cases hb : lastFound found (journalTagBlock env.jsb buf p) with
  | none =>
    rw [hb] at hlook
    refine ⟨mark s.used (env.logBlkno k), fun j hj hj' => ok.mark_logBlkno hj' hk (by omega), ?_⟩
    unfold replayTag
    rw [bind_bind, bind_ok hlook]
    simp only [Bool.false_eq_true, if_false]
    rw [bind_bind, bind_ok (attempt_run (readJournalBlock_free hfree))]
    rfl
  | some r =>
    rw [hb] at hlook
    unfold replayTag
    rw [bind_bind]
    by_cases hr : r < t
    · simp only [hr, if_true] at hlook ⊢
      exact bind_abort hlook _
    · simp only [hr, if_false] at hlook ⊢
      refine ⟨s.used, fun _ _ _ => rfl, ?_⟩
      rw [bind_ok hlook]
      rfl

theorem replayLoop_round {nextBlock : Nat} (buf : Block) (p left : Nat)
    (hrev : s.revoke = tableOf env.jsb found) (hk : k < area env.jsb)
    (hfree : s.used (env.logBlkno k) = false) (hnext : jwrap env.jsb nextBlock = pos env.jsb k) :
    Replays env found [copyOf env.jsb t buf (p, s.dev (env.logBlkno k))] (k + 1) s
      (replayLoop env buf (seqOf env.jsb t) (left + 1) p nextBlock none s) (fun s' =>
        if tagFlag buf p jbd2FlagLastTag then some (.ok (pos env.jsb (k + 1), none), s')
        else replayLoop env buf (seqOf env.jsb t) left (nextTag env.jsb buf p)
          (pos env.jsb k + 1) none s') := by
  have htag := replayTag_replays ok hfound ht buf p hrev hk hfree (fun ret =>
    if tagFlag buf p jbd2FlagLastTag then pure (jwrap env.jsb (pos env.jsb k + 1), ret)
    else replayLoop env buf (seqOf env.jsb t) left (nextTag env.jsb buf p) (pos env.jsb k + 1) ret)
  rw [replayLoop, hnext]
  rw [jwrap_pos ok] at htag ⊢
  cases hlast : tagFlag buf p jbd2FlagLastTag with
  | true => rwa [hlast] at htag
  | false => rwa [hlast] at htag

theorem replayLoop_replays {p : Nat} {ps : List Nat} (htags : Tags env buf p ps) :
    ∀ {logged : List (Nat × Block)} {k left nextBlock : Nat} {s : St},
      logged.map Prod.fst = ps → DataAt env dev k logged →
      (∀ j, s.dev (env.logBlkno j) = dev (env.logBlkno j)) →
      (∀ q ∈ logged, ¬ env.InLog (journalTagBlock env.jsb buf q.1)) →
      s.revoke = tableOf env.jsb found →
      (∀ j, k ≤ j → j < k + logged.length → s.used (env.logBlkno j) = false) →
      k + logged.length ≤ area env.jsb → logged.length ≤ left →
      jwrap env.jsb nextBlock = pos env.jsb k →
      Replays env found (logged.map (copyOf env.jsb t buf)) (k + logged.length) s
        (replayLoop env buf (seqOf env.jsb t) left p nextBlock none s)
        (fun s' => some (.ok (pos env.jsb (k + logged.length), none), s')) := by
  induction htags with
  | @last p _ _ hlast =>
    intro logged k left nextBlock s hmap hdata hdev hout hrev hfree harea hleft hnext
    cases hdata with
    | nil => cases hmap
    | @cons _ q rest hrest =>
      rw [map_cons, List.cons.injEq, map_eq_nil_iff] at hmap
      obtain ⟨rfl, rfl⟩ := hmap
      obtain ⟨left, rfl⟩ := Nat.exists_eq_add_of_le' hleft
      have hround := replayLoop_round ok hfound ht buf q left hrev harea
        (hfree k le_rfl (Nat.lt_succ_self k)) hnext
      simp only [hlast, if_true, hdev k] at hround
      exact hround
  | @more p ps _ _ hlast htags ih =>
    intro logged k left nextBlock s hmap hdata hdev hout hrev hfree harea hleft hnext
    cases hdata with
    | nil => cases hmap
    | @cons _ q rest hrest =>
      rw [map_cons, List.cons.injEq] at hmap
      obtain ⟨rfl, hmap⟩ := hmap
      obtain ⟨left, rfl⟩ := Nat.exists_eq_add_of_le' hleft
      rw [length_cons] at harea hfree hleft
      rw [forall_mem_cons] at hout
      have hround := replayLoop_round ok hfound ht buf q (left + rest.length) hrev
        (by omega : k < area env.jsb) (hfree k le_rfl (by omega)) hnext
      simp only [hlast, Bool.false_eq_true, if_false, hdev k] at hround
      rw [map_cons, length_cons, show k + (rest.length + 1) = k + 1 + rest.length by omega]
      refine Replays.append (by omega) hround ?_
      -- the rest of the tags, in a state where the log is the same and the data blocks are free
      intro dev' used' happly hsame
      refine ih hmap hrest ?_ hout.2 hrev ?_ (by omega) (by omega) (jwrap_pos ok k 1)
      · intro j
        rw [← hdev j]
        refine applyCopies_log ok happly ?_ j
        simpa [copyOf] using hout.1
      · intro j hj hj'
        rw [← hfree j (by omega) (by omega)]
        exact hsame j hj (by omega)

theorem replayBlocks_replays {logged : List (Nat × Block)}
    (htags : Tags env buf 3 (logged.map Prod.fst)) (hdata : DataAt env dev k logged)
    (hdev : ∀ j, s.dev (env.logBlkno j) = dev (env.logBlkno j))
    (hout : ∀ q ∈ logged, ¬ env.InLog (journalTagBlock env.jsb buf q.1))
    (hrev : s.revoke = tableOf env.jsb found)
    (hfree : ∀ j, k ≤ j → j < k + logged.length → s.used (env.logBlkno j) = false)
    (harea : k + logged.length ≤ area env.jsb) :
    Replays env found (logged.map (copyOf env.jsb t buf)) (k + logged.length) s
      (replayBlocks env buf (seqOf env.jsb t) (pos env.jsb k) s)
      (fun s' => some (.ok (pos env.jsb (k + logged.length), none), s')) := by
  have hfits := htags.length_fits
  rw [length_map] at hfits
  refine replayLoop_replays ok hfound ht htags rfl hdata hdev hout hrev hfree harea ?_
    (jwrap_pos ok k 0)
  rw [Nat.le_div_iff_mul_le (Nat.mul_pos (journalTagWords_pos env.jsb) (by decide)), ← mul_assoc]
  omega

end Recover

/-! ### The order of the log -/

theorem inRecords_le {f : Nat → Record → List α} {key : α → Nat}
    (hkey : ∀ t r, ∀ a ∈ f t r, key a = t) : ∀ rs t, ∀ a ∈ inRecords f t rs, t ≤ key a
  | [], _, _, ha => absurd ha not_mem_nil
  | .commit :: rest, t, a, ha => Nat.le_of_succ_le (inRecords_le hkey rest (t + 1) a ha)
  | .descriptor _ _ :: rest, t, a, ha =>
    (mem_append.mp ha).elim (fun h => (hkey t _ a h).ge) (inRecords_le hkey rest t a)
  | .revoke _ :: rest, t, a, ha =>
    (mem_append.mp ha).elim (fun h => (hkey t _ a h).ge) (inRecords_le hkey rest t a)

theorem inRecords_sorted {f : Nat → Record → List α} {key : α → Nat}
    (hkey : ∀ t r, ∀ a ∈ f t r, key a = t) :
    ∀ rs t, (inRecords f t rs).Pairwise fun a b => key a ≤ key b := by
  -- the entries of one record have one number, and those after it no smaller one
  have hstep : ∀ r rest t, (inRecords f t rest).Pairwise (fun a b => key a ≤ key b) →
      (f t r ++ inRecords f t rest).Pairwise fun a b => key a ≤ key b := by
    intro r rest t hrest
    rw [pairwise_append]
    refine ⟨pairwise_of_forall_mem_list fun a ha b hb => ?_, hrest, fun a ha b hb => ?_⟩
    · rw [hkey t r a ha, hkey t r b hb]
    · rw [hkey t r a ha]
      exact inRecords_le hkey rest t b hb
  intro rs
  induction rs with
  | nil => intro t; exact List.Pairwise.nil
  | cons r rest ih =>
    intro t
    cases r with
    | commit => exact ih (t + 1)
    | descriptor buf logged => exact hstep _ rest t (ih t)
    | revoke buf => exact hstep _ rest t (ih t)

theorem Record.copies_txn (jsb : Jsb) (t : Nat) (r : Record) : ∀ c ∈ r.copies jsb t, c.txn = t := by
  intro c hc
  cases r with
  | descriptor buf logged =>
    obtain ⟨q, _, rfl⟩ := mem_map.mp hc
    rfl
  | revoke buf => cases hc
  | commit => cases hc

theorem Record.found_txn (jsb : Jsb) (t : Nat) (r : Record) : ∀ a ∈ r.found jsb t, a.1 = t := by
  intro a ha
  cases r with
  | revoke buf =>
    obtain ⟨b, _, rfl⟩ := mem_map.mp ha
    rfl
  | descriptor buf logged => cases ha
  | commit => cases ha

theorem revokeInsert_again (jsb : Jsb) {b : Nat} (hsorted : found.Pairwise fun a c => a.1 ≤ c.1)
    (hfew : ∀ r ∈ found, r.1 < 2 ^ 31) (hmem : (t, b) ∈ found) :
    revokeInsert (tableOf jsb found) b (seqOf jsb t) = tableOf jsb found := by
  have hin : (t, b) ∈ found.filter fun r => decide (r.2 = b) := mem_filter.mpr ⟨hmem, by simp⟩
  obtain ⟨c, hc⟩ := Option.isSome_iff_exists.mp (getLast?_isSome.mpr (ne_nil_of_mem hin))
  have hle : t ≤ c.1 := le_getLast?_filter hsorted hc hmem (by simp)
  have hlast : lastFound found b = some c.1 := by
    unfold lastFound
    rw [hc]
    rfl
  funext x
  unfold revokeInsert
  split
  · rename_i hx
    subst hx
    unfold tableOf
    rw [hlast]
    simp only [Option.map_some]
    rw [seqGt_seqOf jsb (hfew _ hmem) (hfew _ (lastFound_mem hlast)), decide_eq_false (by omega)]
    rfl
  · rfl

theorem foldl_revokeInsert_again (jsb : Jsb) (hsorted : found.Pairwise fun a c => a.1 ≤ c.1)
    (hfew : ∀ r ∈ found, r.1 < 2 ^ 31) (bs : List Nat) (hmem : ∀ b ∈ bs, (t, b) ∈ found) :
    bs.foldl (fun tab b => revokeInsert tab b (seqOf jsb t)) (tableOf jsb found) =
      tableOf jsb found := by
  induction bs with
  | nil => rfl
  | cons b bs ih =>
    rw [foldl_cons, revokeInsert_again jsb hsorted hfew (hmem b mem_cons_self)]
    exact ih fun c hc => hmem c (mem_cons_of_mem b hc)

/-! ### Complete transactions -/

theorem Complete.tail {r : Record} {rest : List Record} (h : Complete (r :: rest)) :
    Complete rest ∧ (rest = [] → r = .commit) := by
  have hlast := h.resolve_left (cons_ne_nil r rest)
  cases rest with
  | nil => exact ⟨Or.inl rfl, fun _ => Option.some.inj hlast⟩
  | cons q qs => exact ⟨Or.inr hlast, fun hnil => absurd hnil (cons_ne_nil q qs)⟩

theorem RecordsAt.txn_lt (h : RecordsAt env dev t k rs t' k') (hc : Complete rs) (hne : rs ≠ []) :
    t < t' := by
  induction h with
  | nil t k => exact absurd rfl hne
  | @descriptor t k t' k' logged rest _ _ _ _ _ ih =>
    obtain ⟨hrest, hlast⟩ := hc.tail
    exact ih hrest fun hnil => absurd (hlast hnil) (by simp)
  | @revoke t k t' k' rest _ _ _ ih =>
    obtain ⟨hrest, hlast⟩ := hc.tail
    exact ih hrest fun hnil => absurd (hlast hnil) (by simp)
  | @commit t k t' k' rest _ hrest _ => exact hrest.txn_le

/-! ### The walk -/

theorem recover_round (ok : env.Ok) {ty : Nat} (fuel : Nat) (ht : t < t') (hfew : t' < 2 ^ 31)
    (hfinal : s.finalSeq = seqOf env.jsb t')
    (hbuf : Header (s.dev (env.logBlkno k)) ty (seqOf env.jsb t)) :
    walkLoop env true (fuel + 1) (seqOf env.jsb t) (pos env.jsb k) none s =
      (walkBlock env true (s.dev (env.logBlkno k)) (seqOf env.jsb t) (pos env.jsb (k + 1)) none >>=
        fun r => walkLoop env true fuel r.1 r.2.1 r.2.2) s := by
  have hgo : (true && seqGeq (seqOf env.jsb t) s.finalSeq) = false := by
    rw [hfinal, seqGeq_seqOf env.jsb (by omega) hfew, Bool.true_and, decide_eq_false]
    omega
  rw [walkLoop_header fuel hgo rfl hbuf, jwrap_pos ok]
  rfl

theorem recover_records (ok : env.Ok) (hsorted : found.Pairwise fun a c => a.1 ≤ c.1)
    (hfound : ∀ r ∈ found, r.1 < 2 ^ 31) (h : RecordsAt env dev t k rs t' k')
    (hk : k' ≤ area env.jsb) (hfew : t' < 2 ^ 31) :
    ∀ {s} fuel, Complete rs → (∀ r ∈ inRecords (Record.found env.jsb) t rs, r ∈ found) →
      (∀ j, s.dev (env.logBlkno j) = dev (env.logBlkno j)) →
      s.revoke = tableOf env.jsb found → s.finalSeq = seqOf env.jsb t' → DataFree env s.used k rs →
      Replays env found (inRecords (Record.copies env.jsb) t rs) k' s
        (walkLoop env true (fuel + rs.length) (seqOf env.jsb t) (pos env.jsb k) none s)
        (walkLoop env true fuel (seqOf env.jsb t') (pos env.jsb k') none) := by
  induction h with
  | nil t k =>
    intro s fuel _ _ _ _ _ _
    exact Replays.refl _
  | @descriptor t k t' k' logged rest hbuf htags hdata hout hrest ih =>
    intro s fuel hc hin hdev hrev hfinal hfree
    have htxn := RecordsAt.txn_lt (.descriptor hbuf htags hdata hout hrest) hc (cons_ne_nil _ _)
    have hlen := hrest.length_le
    have hblocks := replayBlocks_replays ok hfound (by omega : t < 2 ^ 31) htags hdata hdev
        hout hrev
      (fun j hj hj' => hfree.1 j (by omega) (by omega)) (by omega)
    rw [length_cons, ← add_assoc,
      recover_round ok _ htxn hfew hfinal ((hdev k).symm ▸ hbuf), hdev k]
    unfold walkBlock
    rw [if_pos hbuf.2.1, if_pos rfl, bind_bind]
    refine Replays.append (by omega) (hblocks.bind _) ?_
    -- the rest of the records, in a state where the log is the same
    intro dev' used' happly hsame
    refine ih hk hfew fuel hc.tail.1 hin ?_ hrev hfinal ?_
    · intro j
      rw [← hdev j]
      refine applyCopies_log ok happly ?_ j
      intro c hcopy
      obtain ⟨q, hq, rfl⟩ := mem_map.mp hcopy
      exact hout q hq
    · exact DataFree.congr hrest (fun j hj hj' => hsame j hj (by omega)) hfree.2
  | @revoke t k t' k' rest hbuf hcount hrest ih =>
    intro s fuel hc hin hdev hrev hfinal hfree
    have htxn := RecordsAt.txn_lt (.revoke hbuf hcount hrest) hc (cons_ne_nil _ _)
    rw [← hdev k] at hbuf
    rw [length_cons, ← add_assoc, recover_round ok _ htxn hfew hfinal hbuf,
      bind_ok (walkBlock_revoke hbuf s)]
    -- the entries are in the tree already
    have hsame := foldl_revokeInsert_again env.jsb hsorted hfound
      (revokeRecords env.jsb (dev (env.logBlkno k)))
      (fun b hb => hin (t, b) (mem_append_left _ (mem_map_of_mem hb)))
    rw [← hdev k, ← hrev] at hsame
    rw [hsame]
    exact ih hk hfew fuel hc.tail.1 (fun r hr => hin r (mem_append_right _ hr)) hdev hrev
      hfinal hfree
  | @commit t k t' k' rest hbuf hrest ih =>
    intro s fuel hc hin hdev hrev hfinal hfree
    have htxn := RecordsAt.txn_lt (.commit hbuf hrest) hc (cons_ne_nil _ _)
    rw [← hdev k] at hbuf
    rw [length_cons, ← add_assoc, recover_round ok _ htxn hfew hfinal hbuf,
      bind_ok (walkBlock_commit hbuf s), seqOf_succ]
    exact ih hk hfew fuel hc.tail.1 hin hdev hrev hfinal hfree

end Ocfs2Tools.Journal
