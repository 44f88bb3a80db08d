import Ocfs2Tools.UnixIo

/-!
# The cache agrees with the device

`Holds` says that the buffers of a cache have distinct blocks and that each buffer
has the content a function gives its block, with the exception of some blocks. Every
turn of the loops that sync the cache removes one exception, so after them the cache
agrees with the device. The one exception no turn removes is a block a failed write
left torn in the middle: only whole blocks are synced.
-/

namespace Ocfs2Tools.UnixIo

open List Prog

variable {content : Nat → List UInt8} {P : Nat → Prop} {ic ic' : IoCache} {icb : CacheBlock}
  {blkno : Nat} {nocache : Bool} {b blksize : Nat}

/-! ### The list of buffers -/

/-- No two buffers hold the same block. -/
def Distinct (lru : List CacheBlock) : Prop :=
  lru.Pairwise fun a b => a.blkno = none ∨ a.blkno ≠ b.blkno

/-- There is a buffer to steal, no block has two buffers, and each buffer holds what
    `content` says of its block, except for the blocks with `P`. -/
structure Holds (content : Nat → List UInt8) (P : Nat → Prop) (ic : IoCache) : Prop where
  ne_nil : ic.lru ≠ []
  distinct : Distinct ic.lru
  holds : ∀ icb ∈ ic.lru, ∀ b, icb.blkno = some b → ¬ P b → icb.buf = content b

theorem Holds.mono {Q : Nat → Prop} (h : Holds content P ic)
    (hPQ : ∀ icb ∈ ic.lru, ∀ b, icb.blkno = some b → P b → Q b) : Holds content Q ic :=
  ⟨h.ne_nil, h.distinct, fun icb hicb b hb hQ =>
    h.holds icb hicb b hb fun hP => hQ (hPQ icb hicb b hb hP)⟩

theorem lookup_some (h : ic.lookup blkno = some icb) : icb ∈ ic.lru ∧ icb.blkno = some blkno := by
  refine ⟨mem_of_find?_eq_some h, ?_⟩
  simpa using find?_some h

theorem lookup_none : ic.lookup blkno = none ↔ ∀ icb ∈ ic.lru, icb.blkno ≠ some blkno := by
  unfold IoCache.lookup
  simp

theorem mem_del (h : icb ∈ ic.del (some blkno)) : icb ∈ ic.lru :=
  mem_of_mem_eraseP h

theorem mem_del_of_ne (h : icb ∈ ic.lru) (hne : icb.blkno ≠ some blkno) :
    icb ∈ ic.del (some blkno) := by
  unfold IoCache.del
  rw [mem_eraseP_of_neg]
  · exact h
  · simpa using hne

theorem del_ne : ∀ {lru}, Distinct lru →
    ∀ icb ∈ lru.eraseP (fun icb => icb.blkno == some blkno), icb.blkno ≠ some blkno
  | [], _, icb, h => by cases h
  | a :: lru, hd, icb, h => by
    obtain ⟨ha, hd⟩ := pairwise_cons.mp hd
    by_cases hab : a.blkno = some blkno
    · rw [eraseP_cons_of_pos (by simpa using hab)] at h
      rcases ha icb h with hnone | hne
      · rw [hab] at hnone
        cases hnone
      · exact fun heq => hne (hab.trans heq.symm)
    · rw [eraseP_cons_of_neg (by simpa using hab)] at h
      rcases mem_cons.mp h with rfl | h
      · exact hab
      · exact del_ne hd icb h

theorem Distinct.del (h : Distinct ic.lru) : Distinct (ic.del (some blkno)) :=
  List.Pairwise.sublist eraseP_sublist h

theorem mem_touch (hicb : icb.blkno = some blkno) (x : CacheBlock) :
    x ∈ (ic.touch nocache icb).lru ↔ x = icb ∨ x ∈ ic.del (some blkno) := by
  unfold IoCache.touch IoCache.unsee IoCache.seen
  rw [hicb]
  cases nocache <;> simp [or_comm]

theorem Holds.touch (h : Holds content P ic) (nocache : Bool) (hicb : icb.blkno = some blkno)
    (hbuf : icb.buf = content blkno) :
    Holds content (fun b => P b ∧ b ≠ blkno) (ic.touch nocache icb) := by
  have hne : ∀ x ∈ ic.del (some blkno), x.blkno ≠ some blkno := del_ne h.distinct
  refine ⟨?_, ?_, ?_⟩
  · exact ne_nil_of_mem ((mem_touch hicb icb).mpr (.inl rfl))
  · unfold IoCache.touch IoCache.unsee IoCache.seen
    rw [hicb]
    cases nocache with
    | true =>
      refine pairwise_cons.mpr ⟨fun x hx => .inr ?_, h.distinct.del⟩
      rw [hicb]
      exact (hne x hx).symm
    | false =>
      refine pairwise_append.mpr ⟨h.distinct.del, pairwise_singleton _ _, ?_⟩
      intro x hx y hy
      rw [mem_singleton] at hy
      subst hy
      rw [hicb]
      exact .inr (hne x hx)
  · intro x hx b hb hPb
    rcases (mem_touch hicb x).mp hx with rfl | hx
    · rw [hicb] at hb
      cases hb
      exact hbuf
    · refine h.holds x (mem_del hx) b hb fun hP => hPb ⟨hP, ?_⟩
      rintro rfl
      exact hne x hx hb

theorem Holds.steal (h : Holds content P ic) (hnone : ic.lookup blkno = none) (buf : List UInt8)
    (hbuf : buf = content blkno) : ∃ ic', ic.steal blkno buf = some ic' ∧
      Holds content (fun b => P b ∧ b ≠ blkno) (ic'.seen ⟨some blkno, buf⟩) := by
  obtain ⟨lru⟩ := ic
  cases lru with
  | nil => exact absurd rfl h.ne_nil
  | cons a rest =>
    have hall := lookup_none.mp hnone
    have hrest : (IoCache.mk rest).lookup blkno = none :=
      lookup_none.mpr fun x hx => hall x (mem_cons_of_mem a hx)
    refine ⟨⟨⟨some blkno, buf⟩ :: rest⟩, ?_, ?_⟩
    · simp only [IoCache.steal, hrest, if_true]
    · have hd := (pairwise_cons.mp h.distinct).2
      have hnew : Holds content P ⟨⟨some blkno, buf⟩ :: rest⟩ := by
        refine ⟨cons_ne_nil _ _, pairwise_cons.mpr ⟨fun x hx => .inr ?_, hd⟩, ?_⟩
        · exact fun heq => hall x (mem_cons_of_mem a hx) heq.symm
        · intro x hx b hb hP
          rcases mem_cons.mp hx with rfl | hx
          · cases hb
            exact hbuf
          · exact h.holds x (mem_cons_of_mem a hx) b hb hP
      exact hnew.touch false rfl hbuf

theorem lookup_touch (hblk : icb.blkno = some blkno) (h : ic.lookup b ≠ none) :
    (ic.touch nocache icb).lookup b ≠ none := by
  intro hnone
  rw [lookup_none] at hnone
  apply h
  rw [lookup_none]
  intro x hx hxb
  by_cases hbb : x.blkno = some blkno
  · rw [hxb] at hbb
    exact hnone icb ((mem_touch hblk icb).mpr (.inl rfl)) (hblk.trans hbb.symm)
  · exact hnone x ((mem_touch hblk x).mpr (.inr (mem_del_of_ne hx hbb))) hxb

/-! ### One block of the sync loops -/

def nowhere : Nat → Prop := fun _ => False

theorem Holds.touched (h : Holds content nowhere ic) (hlook : ic.lookup blkno = some icb) :
    Holds content nowhere (ic.touch nocache icb) := by
  obtain ⟨hmem, hblk⟩ := lookup_some hlook
  have hbuf := h.holds icb hmem blkno hblk id
  exact (h.touch nocache hblk hbuf).mono fun _ _ _ _ hP => hP.1

theorem syncReadBlock_cached (nocache : Bool) (h : Holds content nowhere ic)
    (hc : ic.lookup blkno ≠ none) :
    ∃ ic', syncReadBlock nocache blkno none ic = some (content blkno, ic') ∧
      Holds content nowhere ic' ∧ ∀ b, ic.lookup b ≠ none → ic'.lookup b ≠ none := by
  cases hlook : ic.lookup blkno with
  | none => exact absurd hlook hc
  | some icb =>
    obtain ⟨hmem, hblk⟩ := lookup_some hlook
    refine ⟨ic.touch nocache icb, ?_, h.touched hlook, fun b hb => lookup_touch hblk hb⟩
    simp only [syncReadBlock, hlook, h.holds icb hmem blkno hblk id]

theorem syncReadBlock_fresh (nocache : Bool) (blkno : Nat) (h : Holds content nowhere ic) :
    ∃ ic', syncReadBlock nocache blkno (some (content blkno)) ic = some (content blkno, ic') ∧
      Holds content nowhere ic' := by
  cases hlook : ic.lookup blkno with
  | some icb =>
    refine ⟨ic.touch nocache icb, ?_, h.touched hlook⟩
    simp only [syncReadBlock, hlook]
  | none =>
    cases nocache with
    | true => exact ⟨ic, by simp only [syncReadBlock, hlook, if_true], h⟩
    | false =>
      obtain ⟨ic', hsteal, hH⟩ := h.steal hlook _ rfl
      refine ⟨_, ?_, hH.mono fun _ _ _ _ hP => hP.1⟩
      simp only [syncReadBlock, hlook, Bool.false_eq_true, if_false, hsteal]

theorem syncWriteBlock_spec (nocache : Bool) (h : Holds content P ic) {data : List UInt8}
    (hdata : data = content blkno) : ∃ ic', syncWriteBlock nocache blkno data ic = some ((), ic') ∧
      Holds content (fun b => P b ∧ b ≠ blkno) ic' := by
  cases hlook : ic.lookup blkno with
  | some icb =>
    refine ⟨ic.touch nocache ⟨some blkno, data⟩, ?_, h.touch nocache rfl hdata⟩
    simp only [syncWriteBlock, hlook]
  | none =>
    cases nocache with
    | true =>
      refine ⟨ic, by simp only [syncWriteBlock, hlook, if_true], h.mono ?_⟩
      intro icb hicb b hb hP
      refine ⟨hP, ?_⟩
      rintro rfl
      exact lookup_none.mp hlook icb hicb hb
    | false =>
      obtain ⟨ic', hsteal, hH⟩ := h.steal hlook data hdata
      refine ⟨_, ?_, hH⟩
      simp only [syncWriteBlock, hlook, Bool.false_eq_true, if_false, hsteal]

/-! ### The sync loops -/

variable {ch ch' : Channel}

def Channel.blockAt (ch : Channel) (b : Nat) : List UInt8 :=
  bytesAt ch.device (b * ch.blksize) ch.blksize

theorem onCache_run {α : Type} {f : IoCache → Option (α × IoCache)} {a : α}
    (hc : ch.cache = some ic) (hf : f ic = some (a, ic')) :
    onCache f ch = some (.ok a, { ch with cache := some ic' }) := by
  simp only [onCache, hc, hf]

theorem bytesAt_blocks_succ (ch : Channel) (b n : Nat) :
    bytesAt ch.device (b * ch.blksize) ((n + 1) * ch.blksize) =
      ch.blockAt b ++ bytesAt ch.device ((b + 1) * ch.blksize) (n * ch.blksize) := by
  rw [Nat.succ_mul, Nat.add_comm, bytesAt_append, Nat.succ_mul]
  rfl

theorem syncRead_fresh (count : Nat) : ∀ ch ic blkno,
    ch.cache = some ic → Holds ch.blockAt nowhere ic →
    ∃ ic', syncRead nocache ch.blksize blkno 0 count
        (bytesAt ch.device (blkno * ch.blksize) (count * ch.blksize)) ch =
      some (.ok (bytesAt ch.device (blkno * ch.blksize) (count * ch.blksize)),
        { ch with cache := some ic' }) ∧ Holds ch.blockAt nowhere ic' := by
  induction count with
  | zero =>
    intro ch ic blkno hc h
    refine ⟨ic, ?_, h⟩
    rw [← hc]
    simp [syncRead]
  | succ count ih =>
    intro ch ic blkno hc h
    obtain ⟨ic1, hblock, h1⟩ := syncReadBlock_fresh nocache blkno h
    obtain ⟨ic2, hrest, h2⟩ := ih { ch with cache := some ic1 } ic1 (blkno + 1) rfl h1
    refine ⟨ic2, ?_, h2⟩
    rw [bytesAt_blocks_succ]
    have hlen : (ch.blockAt blkno).length = ch.blksize := bytesAt_length _ _ _
    unfold syncRead
    rw [take_left' hlen, drop_left' hlen, bind_ok (onCache_run hc hblock), bind_ok hrest]
    rfl

theorem syncRead_run (nocache : Bool) (good count : Nat) : ∀ ch ic blkno,
    ch.cache = some ic → Holds ch.blockAt nowhere ic → (∀ i < good, ic.lookup (blkno + i) ≠ none) →
    ∃ ic', syncRead nocache ch.blksize blkno good count
        (bytesAt ch.device ((blkno + good) * ch.blksize) (count * ch.blksize)) ch =
      some (.ok (bytesAt ch.device (blkno * ch.blksize) ((good + count) * ch.blksize)),
        { ch with cache := some ic' }) ∧ Holds ch.blockAt nowhere ic' := by
  induction good with
  | zero =>
    intro ch ic blkno hc h _
    simpa using syncRead_fresh count ch ic blkno hc h
  | succ good ih =>
    intro ch ic blkno hc h hcached
    have hfirst : ic.lookup blkno ≠ none := by simpa using hcached 0 (Nat.succ_pos good)
    obtain ⟨ic1, hblock, h1, hkeep⟩ := syncReadBlock_cached nocache h hfirst
    obtain ⟨ic2, hrest, h2⟩ := ih { ch with cache := some ic1 } ic1 (blkno + 1) rfl h1 (by
        intro i hi
        apply hkeep
        have := hcached (i + 1) (Nat.succ_lt_succ hi)
        rwa [← Nat.add_assoc, Nat.add_right_comm] at this)
    refine ⟨ic2, ?_, h2⟩
    have hstart : blkno + (good + 1) = blkno + 1 + good := by omega
    rw [show good + 1 + count = good + count + 1 by omega, bytesAt_blocks_succ, hstart]
    unfold syncRead
    rw [bind_ok (onCache_run hc hblock), bind_ok hrest]
    rfl

/-- The loop over the blocks written, whatever the device holds elsewhere: the blocks
    of the loop are no exceptions any more. -/
theorem syncWrite_run (nocache : Bool) (n : Nat) :
    ∀ P ch ic blkno data, ch.cache = some ic → Holds ch.blockAt P ic →
    (∀ i < n, (data.drop (i * ch.blksize)).take ch.blksize = ch.blockAt (blkno + i)) →
    ∃ ic', syncWrite nocache ch.blksize blkno n data ch =
        some (.ok (), { ch with cache := some ic' }) ∧
      Holds ch.blockAt (fun b => P b ∧ ¬ (blkno ≤ b ∧ b < blkno + n)) ic' := by
  induction n with
  | zero =>
    intro P ch ic blkno data hc h _
    refine ⟨ic, ?_, h.mono fun _ _ b _ hP => ⟨hP, by omega⟩⟩
    rw [← hc]
    simp [syncWrite]
  | succ n ih =>
    intro P ch ic blkno data hc h hdata
    have hfirst : data.take ch.blksize = ch.blockAt blkno := by
      simpa using hdata 0 (Nat.succ_pos n)
    obtain ⟨ic1, hblock, h1⟩ := syncWriteBlock_spec nocache h hfirst
    obtain ⟨ic2, hrest, h2⟩ := ih _ { ch with cache := some ic1 } ic1 (blkno + 1)
      (data.drop ch.blksize) rfl h1
      (by
        intro i hi
        have := hdata (i + 1) (Nat.succ_lt_succ hi)
        rw [Nat.succ_mul, Nat.add_comm (i * ch.blksize), ← drop_drop] at this
        rw [this, show blkno + (i + 1) = blkno + 1 + i by omega]
        rfl)
    refine ⟨ic2, ?_, h2.mono ?_⟩
    · unfold syncWrite
      rw [bind_ok (onCache_run hc hblock)]
      exact hrest
    · rintro _ _ b _ ⟨⟨hP, hne⟩, hrange⟩
      exact ⟨hP, by omega⟩

/-! ### Transfers -/

theorem transfer_spec (size : Nat) : ∀ outs tot, tot ≤ size → (transfer size tot outs).2.1 ≤ size ∧
      ((transfer size tot outs).1 = true → (transfer size tot outs).2.1 = size)
  | [], tot, h => by
    simp only [transfer]
    omega
  | out :: rest, tot, h => by
    unfold transfer
    split
    · next hge =>
      exact ⟨h, fun _ => Nat.le_antisymm h hge⟩
    · cases out with
      | none => exact ⟨h, nofun⟩
      | some n =>
        by_cases hn : n = 0
        · simp only [if_pos hn]
          exact ⟨h, nofun⟩
        · simp only [if_neg hn]
          exact transfer_spec size rest _ (by omega)

theorem intMul_eq {count : Nat} (h : count * blksize < 2 ^ 31) :
    intMul count blksize = ((count * blksize : Nat) : Int) := by
  unfold intMul
  rw [Int.bmod_def]
  omega

theorem intMul_toNat_le (count blksize : Nat) : (intMul count blksize).toNat ≤ count * blksize := by
  unfold intMul
  rw [Int.bmod_def]
  omega

theorem location_eq {n : Nat} (h : n * blksize < 2 ^ 64) :
    location n blksize = n * blksize := Nat.mod_eq_of_lt h

theorem unixIoReadBlock_run (ch : Channel) (n count : Nat) (hsize : count * ch.blksize < 2 ^ 31)
    (hfits : n * ch.blksize < 2 ^ 64) :
    ∃ r rest, unixIoReadBlock n count ch = some (r, { ch with outcomes := rest }) ∧
      (r = .error .io ∨ r = .ok (bytesAt ch.device (n * ch.blksize) (count * ch.blksize))) := by
  obtain ⟨hle, hdone⟩ := transfer_spec (count * ch.blksize) ch.outcomes 0 (Nat.zero_le _)
  unfold unixIoReadBlock
  simp only [intMul_eq hsize, Int.toNat_natCast, location_eq hfits]
  cases hd : (transfer (count * ch.blksize) 0 ch.outcomes).1 with
  | false => exact ⟨_, _, rfl, .inl rfl⟩
  | true =>
    have htot := hdone hd
    refine ⟨_, (transfer (count * ch.blksize) 0 ch.outcomes).2.2, ?_, .inr rfl⟩
    simp only [Bool.not_true, Bool.false_eq_true, if_false, htot, ne_eq, not_true_eq_false]

/-! ### Reading through the cache -/

/-- The cache of the channel agrees with the device; sizes fit a C `int`. -/
structure Sound (ch : Channel) : Prop where
  blksize_pos : 0 < ch.blksize
  blksize_le : ch.blksize + 2 ^ 20 ≤ 2 ^ 31
  cache : ∃ ic, ch.cache = some ic ∧ Holds ch.blockAt nowhere ic

theorem goodBlocks_spec (ic : IoCache) : ∀ count n, goodBlocks ic n count ≤ count ∧
    ∀ i < goodBlocks ic n count, ic.lookup (n + i) ≠ none
  | 0, n => by
    refine ⟨Nat.le_refl _, fun i hi => ?_⟩
    exact absurd hi (Nat.not_lt_zero i)
  | count + 1, n => by
    unfold goodBlocks
    cases hlook : ic.lookup n with
    | none => exact ⟨Nat.zero_le _, fun i hi => absurd hi (Nat.not_lt_zero i)⟩
    | some icb =>
      obtain ⟨hle, hall⟩ := goodBlocks_spec ic count (n + 1)
      refine ⟨Nat.succ_le_succ hle, fun i hi => ?_⟩
      cases i with
      | zero =>
        rw [Nat.add_zero, hlook]
        exact Option.some_ne_none icb
      | succ i =>
        have := hall i (Nat.lt_of_succ_lt_succ hi)
        rwa [Nat.add_right_comm] at this

/-- What a read through the cache ends with: an error, or the blocks of the device. -/
def ReadEnd (ch : Channel) (n count : Nat) (res : Option (Except IoError (List UInt8) × Channel)) :
    Prop :=
  ∃ r ic' rest, res = some (r, { ch with cache := some ic', outcomes := rest }) ∧
    Holds ch.blockAt nowhere ic' ∧
      ∀ data, r = .ok data → data = bytesAt ch.device (n * ch.blksize) (count * ch.blksize)

theorem ioCacheReadBlocks_end (nocache : Bool) (n count : Nat) (h : Sound ch)
    (hsize : count * ch.blksize < 2 ^ 31) (hfits : (n + count) * ch.blksize < 2 ^ 64) :
    ReadEnd ch n count (ioCacheReadBlocks n count nocache ch) := by
  obtain ⟨ic, hc, hH⟩ := h.cache
  obtain ⟨hle, hgood⟩ := goodBlocks_spec ic count n
  have hfirst : onCache (fun ic => some (goodBlocks ic n count, ic)) ch =
      some (.ok (goodBlocks ic n count), ch) := by
    rw [onCache_run hc rfl, ← hc]
  unfold ioCacheReadBlocks
  rw [bind_ok hfirst]
  generalize hg : goodBlocks ic n count = good at hle hgood
  split
  · have hmul : (count - good) * ch.blksize ≤ count * ch.blksize :=
      Nat.mul_le_mul_right _ (Nat.sub_le _ _)
    have hmul' : (n + good) * ch.blksize ≤ (n + count) * ch.blksize :=
      Nat.mul_le_mul_right _ (by omega)
    obtain ⟨r, rest, hread, hr⟩ := unixIoReadBlock_run ch (n + good) (count - good)
      (Nat.lt_of_le_of_lt hmul hsize) (Nat.lt_of_le_of_lt hmul' hfits)
    rcases hr with rfl | rfl
    · refine ⟨.error .io, ic, rest, ?_, hH, nofun⟩
      rw [bind_error hread, ← hc]
    · rw [bind_ok hread]
      obtain ⟨ic', hsync, hH'⟩ := syncRead_run nocache good (count - good)
        { ch with outcomes := rest } ic n hc hH hgood
      refine ⟨_, ic', rest, hsync, hH', fun data hd => ?_⟩
      rw [Nat.add_sub_cancel' hle] at hd
      exact (Except.ok.inj hd).symm
  · have heq : good = count := by omega
    subst heq
    obtain ⟨ic', hsync, hH'⟩ := syncRead_run nocache good 0 ch ic n hc hH hgood
    rw [Nat.zero_mul] at hsync
    rw [Nat.sub_self]
    exact ⟨_, ic', ch.outcomes, hsync, hH', fun data hd => (Except.ok.inj hd).symm⟩

theorem Sound.withCache (h : Sound ch) (rest : List (Option Nat))
    (hH : Holds ch.blockAt nowhere ic') : Sound { ch with cache := some ic', outcomes := rest } :=
  ⟨h.blksize_pos, h.blksize_le, ic', rfl, hH⟩

theorem ioCacheReadLoop_end (nocache : Bool) : ∀ fuel todo n count {ch}, Sound ch →
    0 < todo → todo * ch.blksize < 2 ^ 31 → count < fuel → (n + count) * ch.blksize < 2 ^ 64 →
    ReadEnd ch n count (ioCacheReadLoop nocache fuel todo n count ch)
  | 0, _, _, _, _, _, _, _, hfuel, _ => absurd hfuel (Nat.not_lt_zero _)
  | fuel + 1, todo, n, count, ch, h, htodo, hsize, hfuel, hfits => by
    obtain ⟨ic, hc, hH⟩ := h.cache
    unfold ioCacheReadLoop
    split
    · next hz =>
      refine ⟨.ok [], ic, ch.outcomes, ?_, hH, fun data hd => ?_⟩
      · rw [← hc]
        rfl
      · rw [hz, Nat.zero_mul]
        exact (Except.ok.inj hd).symm
    · have hmin : min todo count ≤ count := Nat.min_le_right _ _
      have hmul : min todo count * ch.blksize ≤ todo * ch.blksize :=
        Nat.mul_le_mul_right _ (Nat.min_le_left _ _)
      have hmul' : (n + min todo count) * ch.blksize ≤ (n + count) * ch.blksize :=
        Nat.mul_le_mul_right _ (by omega)
      obtain ⟨r, ic1, rest, hrun, hH1, hdata⟩ := ioCacheReadBlocks_end nocache n (min todo count) h
        (Nat.lt_of_le_of_lt hmul hsize) (Nat.lt_of_le_of_lt hmul' hfits)
      cases r with
      | error e =>
        refine ⟨.error e, ic1, rest, ?_, hH1, nofun⟩
        rw [bind_error hrun]
      | ok data =>
        have hdata := hdata data rfl
        subst hdata
        have hsum : n + min todo count + (count - min todo count) = n + count := by omega
        obtain ⟨r2, ic2, rest2, hrun2, hH2, hdata2⟩ :=
            ioCacheReadLoop_end nocache fuel (min todo count)
          (n + min todo count) (count - min todo count) (h.withCache rest hH1) (by omega)
          (Nat.lt_of_le_of_lt hmul hsize) (by omega) (by rw [hsum]; exact hfits)
        rw [bind_ok hrun]
        cases r2 with
        | error e =>
          refine ⟨.error e, ic2, rest2, ?_, hH2, nofun⟩
          rw [bind_error hrun2]
        | ok data2 =>
          refine ⟨_, ic2, rest2, by rw [bind_ok hrun2]; rfl, hH2, fun data hd => ?_⟩
          have hd := (Except.ok.inj hd).symm
          rw [hd, hdata2 data2 rfl]
          have hlen : count * ch.blksize =
              min todo count * ch.blksize + (count - min todo count) * ch.blksize := by
            rw [← Nat.add_mul, Nat.add_sub_cancel' hmin]
          rw [hlen, bytesAt_append, Nat.add_mul]

theorem oneMegOfBlocks_pos (h : 0 < blksize) : 0 < oneMegOfBlocks blksize := by
  exact Nat.div_pos (by omega) h

theorem oneMegOfBlocks_mul_lt (h : blksize + 2 ^ 20 ≤ 2 ^ 31) :
    oneMegOfBlocks blksize * blksize < 2 ^ 31 := by
  unfold oneMegOfBlocks
  have := Nat.div_mul_le_self (1024 * 1024 + blksize - 1) blksize
  omega

/-! ### Writing through the cache -/

/-- The number of bytes a write of `count` blocks transfers. -/
def Channel.written (ch : Channel) (count : Nat) : Nat :=
  (transfer (intMul count ch.blksize).toNat 0 ch.outcomes).2.1

/-- The write of `count` blocks ends in the middle of a block that is cached, and what
    it puts there is not what is there already. -/
def Torn (ch : Channel) (n count : Nat) (data : List UInt8) : Prop :=
  let tot := ch.written count
  let whole := tot / ch.blksize
  (∃ ic, ch.cache = some ic ∧ ic.lookup (n + whole) ≠ none) ∧
    bytesAt ch.device ((n + whole) * ch.blksize) (tot % ch.blksize) ≠
      (data.drop (whole * ch.blksize)).take (tot % ch.blksize)

def Channel.wrote (ch : Channel) (n count : Nat) (data : List UInt8) : Channel :=
  { ch with
    outcomes := (transfer (intMul count ch.blksize).toNat 0 ch.outcomes).2.2
    device := writeBytes ch.device (location n ch.blksize) (data.take (ch.written count)) }

theorem written_le (ch : Channel) (count : Nat) : ch.written count ≤ count * ch.blksize :=
  Nat.le_trans (transfer_spec _ ch.outcomes 0 (Nat.zero_le _)).1 (intMul_toNat_le _ _)

theorem unixIoWriteBlockFull_run (ch : Channel) (n count : Nat) (data : List UInt8) :
    ∃ ret, unixIoWriteBlockFull n count data ch =
      some (.ok (ret, ch.written count / ch.blksize), ch.wrote n count data) :=
  ⟨_, rfl⟩

section

variable {n count : Nat} {data : List UInt8}

theorem wrote_device (hfits : n * ch.blksize < 2 ^ 64) : (ch.wrote n count data).device =
    writeBytes ch.device (n * ch.blksize) (data.take (ch.written count)) := by
  show writeBytes ch.device (location n ch.blksize) _ = _
  rw [location_eq hfits]

theorem take_written_length (hlen : data.length = count * ch.blksize) :
    (data.take (ch.written count)).length = ch.written count := by
  rw [length_take, hlen]
  exact Nat.min_eq_left (written_le ch count)

variable (hlen : data.length = count * ch.blksize) (hfits : n * ch.blksize < 2 ^ 64)
include hlen hfits

theorem wrote_whole {i : Nat} (hi : i < ch.written count / ch.blksize) :
    (data.drop (i * ch.blksize)).take ch.blksize = (ch.wrote n count data).blockAt (n + i) := by
  have hend : i * ch.blksize + ch.blksize ≤ ch.written count := by
    rw [← Nat.succ_mul]
    exact Nat.le_trans (Nat.mul_le_mul_right _ hi) (Nat.div_mul_le_self _ _)
  have hwide : i * ch.blksize + ch.blksize ≤ (data.take (ch.written count)).length := by
    rw [take_written_length hlen]
    exact hend
  show _ = bytesAt (ch.wrote n count data).device ((n + i) * ch.blksize) ch.blksize
  rw [wrote_device hfits, Nat.add_mul, bytesAt_writeBytes_inside hwide, drop_take,
    take_take, Nat.min_eq_left (by omega)]

theorem wrote_outside (hb : b < n ∨ n + ch.written count / ch.blksize < b) (hpos : 0 < ch.blksize) :
    (ch.wrote n count data).blockAt b = ch.blockAt b := by
  show bytesAt (ch.wrote n count data).device (b * ch.blksize) ch.blksize = _
  rw [wrote_device hfits]
  apply bytesAt_writeBytes_outside
  rw [take_written_length hlen]
  rcases hb with hb | hb
  · left
    rw [← Nat.succ_mul]
    exact Nat.mul_le_mul_right _ hb
  · have h1 : (n + ch.written count / ch.blksize + 1) * ch.blksize ≤ b * ch.blksize :=
      Nat.mul_le_mul_right _ hb
    have h2 := Nat.div_add_mod (ch.written count) ch.blksize
    have h3 := Nat.mod_lt (ch.written count) hpos
    rw [Nat.succ_mul, Nat.add_mul, Nat.mul_comm (ch.written count / ch.blksize)] at h1
    omega

theorem wrote_middle (hpos : 0 < ch.blksize)
    (hsame : bytesAt ch.device ((n + ch.written count / ch.blksize) * ch.blksize)
        (ch.written count % ch.blksize) =
      (data.drop (ch.written count / ch.blksize * ch.blksize)).take
        (ch.written count % ch.blksize)) :
    (ch.wrote n count data).blockAt (n + ch.written count / ch.blksize) =
      ch.blockAt (n + ch.written count / ch.blksize) := by
  have hmod := Nat.mod_lt (ch.written count) hpos
  have hsum : ch.written count / ch.blksize * ch.blksize + ch.written count % ch.blksize =
      ch.written count := by
    rw [Nat.mul_comm]
    exact Nat.div_add_mod _ _
  have hwide : ch.written count / ch.blksize * ch.blksize + ch.written count % ch.blksize ≤
      (data.take (ch.written count)).length := by
    rw [take_written_length hlen]
    exact Nat.le_of_eq hsum
  have hloc : (n + ch.written count / ch.blksize) * ch.blksize =
      n * ch.blksize + ch.written count / ch.blksize * ch.blksize := Nat.add_mul _ _ _
  show bytesAt (ch.wrote n count data).device _ ch.blksize = bytesAt ch.device _ ch.blksize
  rw [bytesAt_split _ _ (Nat.le_of_lt hmod), bytesAt_split _ _ (Nat.le_of_lt hmod), hsame,
    wrote_device hfits]
  congr 1
  · show bytesAt _ ((n + ch.written count / ch.blksize) * ch.blksize) _ = _
    rw [hloc, bytesAt_writeBytes_inside hwide, drop_take, take_take, Nat.min_eq_left (by omega)]
  · apply bytesAt_writeBytes_outside
    rw [take_written_length hlen]
    right
    show _ ≤ (n + ch.written count / ch.blksize) * ch.blksize + _
    omega

theorem ioCacheWriteBlock_sound (nocache : Bool) (h : Sound ch) (hclean : ¬ Torn ch n count data) :
    ∃ r ch', ioCacheWriteBlock n count data nocache ch = some (r, ch') ∧
      ch'.blksize = ch.blksize ∧ Sound ch' := by
  obtain ⟨ic, hc, hH⟩ := h.cache
  obtain ⟨ret, hwrite⟩ := unixIoWriteBlockFull_run ch n count data
  -- the blocks to sync are the only ones the cache may be wrong about
  have hH1 : Holds (ch.wrote n count data).blockAt
      (fun b => n ≤ b ∧ b < n + ch.written count / ch.blksize) ic := by
    refine ⟨hH.ne_nil, hH.distinct, fun icb hicb b hb hout => ?_⟩
    rw [hH.holds icb hicb b hb id]
    symm
    by_cases hmid : b = n + ch.written count / ch.blksize
    · subst hmid
      apply wrote_middle hlen hfits h.blksize_pos
      by_contra hne
      refine hclean ⟨⟨ic, hc, fun hnone => ?_⟩, hne⟩
      exact lookup_none.mp hnone icb hicb hb
    · exact wrote_outside hlen hfits (by omega) h.blksize_pos
  obtain ⟨ic', hsync, hH2⟩ := syncWrite_run nocache (ch.written count / ch.blksize) _
    (ch.wrote n count data) ic n data hc hH1 fun i hi => wrote_whole hlen hfits hi
  refine ⟨ret, { ch.wrote n count data with cache := some ic' }, ?_, rfl, h.blksize_pos,
    h.blksize_le, ic', rfl, hH2.mono fun _ _ _ _ hP => hP.2 hP.1⟩
  unfold ioCacheWriteBlock
  rw [bind_ok hwrite]
  refine (bind_ok hsync fun _ => ofExcept ret).trans ?_
  cases ret <;> rfl

end

/-! ### Runs of calls -/

/-- A call of `io_read_block`, `io_write_block` or, with `nocache`, of their `_nocache` forms. -/
inductive Call where
  | read (nocache : Bool) (blkno count : Nat)
  | write (nocache : Bool) (blkno count : Nat) (data : List UInt8)

def Call.run : Call → Io (List UInt8)
  | .read nocache blkno count => ioReadBlock nocache blkno count
  | .write nocache blkno count data => do
    ioWriteBlock nocache blkno count data
    pure []

/-- The call is about at least one block, its blocks have byte offsets of type
    `off64_t`, and it writes the bytes of its blocks. -/
def Call.Fits (blksize : Nat) : Call → Prop
  | .read _ blkno count => 0 < count ∧ (blkno + count) * blksize ≤ 2 ^ 63
  | .write _ blkno count data =>
    0 < count ∧ (blkno + count) * blksize ≤ 2 ^ 63 ∧ data.length = count * blksize

/-- The call is a write that ends in the middle of a cached block and changes it. -/
def Call.Torn (ch : Channel) : Call → Prop
  | .read _ _ _ => False
  | .write _ blkno count data => UnixIo.Torn ch blkno count data

/-- Every block held in the cache has exactly the content the device has. -/
def Coherent (ch : Channel) : Prop :=
  ∀ ic, ch.cache = some ic → ∀ icb ∈ ic.lru, ∀ b, icb.blkno = some b → icb.buf = ch.blockAt b

/-- A successful read has returned the content of the device. -/
def Call.Answered (ch : Channel) (r : Except IoError (List UInt8)) : Call → Prop
  | .read _ blkno count =>
    ∀ data, r = .ok data → data = bytesAt ch.device (blkno * ch.blksize) (count * ch.blksize)
  | .write _ _ _ _ => True

/-- Every call of the run returns, and after each the cache is coherent and reads have
    returned what the device holds. -/
def RunsWell : List Call → Channel → Prop
  | [], _ => True
  | c :: cs, ch => ∃ r ch', c.run ch = some (r, ch') ∧ Coherent ch' ∧ c.Answered ch' r ∧
      RunsWell cs ch'

/-- No call of the run tears a cached block. -/
def NeverTorn : List Call → Channel → Prop
  | [], _ => True
  | c :: cs, ch => ¬ c.Torn ch ∧ ∀ r ch', c.run ch = some (r, ch') → NeverTorn cs ch'

theorem Sound.coherent (h : Sound ch) : Coherent ch := by
  obtain ⟨ic, hc, hH⟩ := h.cache
  intro ic' hc' icb hicb b hb
  rw [hc] at hc'
  cases hc'
  exact hH.holds icb hicb b hb id

theorem Call.step (c : Call) (h : Sound ch) (hfits : c.Fits ch.blksize) (hclean : ¬ c.Torn ch) :
    ∃ r ch', c.run ch = some (r, ch') ∧ ch'.blksize = ch.blksize ∧ Sound ch' ∧
      c.Answered ch' r := by
  obtain ⟨ic, hc, hH⟩ := h.cache
  have hsome : ch.cache.isSome = true := by rw [hc]; rfl
  cases c with
  | read nocache n count =>
    obtain ⟨r, ic', rest, hrun, hH', hdata⟩ := ioCacheReadLoop_end (nocache || ch.nocache)
      (count + 1) (oneMegOfBlocks ch.blksize) n count h (oneMegOfBlocks_pos h.blksize_pos)
      (oneMegOfBlocks_mul_lt h.blksize_le) (Nat.lt_succ_self count)
      (Nat.lt_of_le_of_lt hfits.2 (by decide))
    refine ⟨r, { ch with cache := some ic', outcomes := rest }, ?_, rfl,
      h.withCache rest hH', hdata⟩
    show (if ch.cache.isSome then ioCacheReadBlock n count (nocache || ch.nocache)
      else unixIoReadBlock n count) ch = _
    rw [if_pos hsome]
    exact hrun
  | write nocache n count data =>
    have hn : n * ch.blksize < 2 ^ 64 :=
      Nat.lt_of_le_of_lt (Nat.le_trans (Nat.mul_le_mul_right _ (Nat.le_add_right n count))
        hfits.2.1)
        (by decide)
    obtain ⟨r, ch', hrun, hblk, hs⟩ := ioCacheWriteBlock_sound hfits.2.2 hn
      (nocache || ch.nocache) h hclean
    have hcall : ioWriteBlock nocache n count data ch = some (r, ch') := by
      show (if ch.cache.isSome then ioCacheWriteBlock n count data (nocache || ch.nocache)
        else _) ch = _
      rw [if_pos hsome]
      exact hrun
    cases r with
    | error e => exact ⟨.error e, ch', bind_error hcall _, hblk, hs, trivial⟩
    | ok u => exact ⟨.ok [], ch', bind_ok hcall _, hblk, hs, trivial⟩

/-- As long as no write ends in the middle of a cached block, every run keeps the cache
    in agreement with the device and every successful read returns its content. -/
theorem runsWell_of_neverTorn : ∀ (cs : List Call) (ch : Channel), Sound ch →
    (∀ c ∈ cs, c.Fits ch.blksize) → NeverTorn cs ch → RunsWell cs ch
  | [], _, _, _, _ => trivial
  | c :: cs, ch, h, hfits, ⟨hclean, hrest⟩ => by
    obtain ⟨r, ch', hrun, hblk, hs, hans⟩ := c.step h (hfits c List.mem_cons_self) hclean
    refine ⟨r, ch', hrun, hs.coherent, hans, ?_⟩
    apply runsWell_of_neverTorn cs ch' hs
    · intro c' hc'
      rw [hblk]
      exact hfits c' (List.mem_cons_of_mem c hc')
    · exact hrest r ch' hrun

theorem sound_ioInitCache {nrBlocks : Nat} (hpos : 0 < ch.blksize)
    (hle : ch.blksize + 2 ^ 20 ≤ 2 ^ 31) (hn : 0 < nrBlocks)
    (hc : ch.cache = some (ioInitCache nrBlocks)) : Sound ch := by
  refine ⟨hpos, hle, _, hc, ?_, ?_, ?_⟩
  · intro hnil
    rw [ioInitCache, replicate_eq_nil_iff] at hnil
    omega
  · exact pairwise_replicate.mpr (.inr (.inl rfl))
  · intro icb hicb b hb
    rw [(mem_replicate.mp hicb).2] at hb
    cases hb

/-! ### A torn write -/

/-- A channel to a device full of zeros with one buffer; `outcomes` is what the next
    transfers do. -/
def freshChannel (outcomes : List (Option Nat)) : Channel where
  blksize := 512
  nocache := false
  cache := some (ioInitCache 1)
  device := fun _ => 0
  outcomes := outcomes

theorem freshChannel_sound (outcomes : List (Option Nat)) : Sound (freshChannel outcomes) := by
  refine sound_ioInitCache (show 0 < 512 by decide) (show 512 + 2 ^ 20 ≤ 2 ^ 31 by decide)
    (Nat.succ_pos 0) rfl

/-- The channel after writing twos to block 0. -/
def wholeChannel : Channel :=
  { freshChannel [some 100, none] with
    cache := some ⟨[⟨some 0, (List.replicate 512 2).take 512⟩]⟩
    device := writeBytes (fun _ => 0) 0 ((List.replicate 512 2).take 512) }

/-- The channel after then writing ones to block 0, which stops after 100 bytes. -/
def tornChannel : Channel :=
  { wholeChannel with
    outcomes := []
    device := writeBytes wholeChannel.device 0 ((List.replicate 512 1).take 100) }

theorem run_first_write : Call.run (.write false 0 1 (List.replicate 512 2))
    (freshChannel [some 512, some 100, none]) = some (.ok [], wholeChannel) := by
  have htransfer : transfer (intMul 1 512).toNat 0 [some 512, some 100, none] =
      (true, 512, [some 100, none]) := by decide
  have hwrite : unixIoWriteBlockFull 0 1 (List.replicate 512 2)
      (freshChannel [some 512, some 100, none]) = some (.ok (.ok (), 1),
        { freshChannel [some 100, none] with
          device := writeBytes (fun _ => 0) 0 ((List.replicate 512 2).take 512) }) := by
    simp only [unixIoWriteBlockFull, freshChannel, htransfer]
    rfl
  have hcall : ioWriteBlock false 0 1 (List.replicate 512 2)
      (freshChannel [some 512, some 100, none]) = some (.ok (), wholeChannel) := by
    refine (bind_ok rfl _).trans ?_
    exact (bind_ok hwrite _).trans rfl
  exact bind_ok hcall _

def tornCalls : List Call :=
  [.write false 0 1 (List.replicate 512 2), .write false 0 1 (List.replicate 512 1)]

/-- If the second write stops after 100 bytes, the cache still holds twos, but the device
    begins with ones. -/
theorem tornCalls_not_runsWell :
    Sound (freshChannel [some 512, some 100, none]) ∧ (∀ c ∈ tornCalls, c.Fits 512) ∧
      ¬ RunsWell tornCalls (freshChannel [some 512, some 100, none]) := by
  refine ⟨freshChannel_sound _, forall_mem_cons.mpr ⟨⟨by decide, by decide, length_replicate⟩,
    forall_mem_singleton.mpr ⟨by decide, by decide, length_replicate⟩⟩, ?_⟩
  · rintro ⟨r, ch1, hfirst, _, _, r2, ch2, hsecond, hcoh, _⟩
    rw [run_first_write] at hfirst
    obtain ⟨-, rfl⟩ := Prod.mk.inj (Option.some.inj hfirst)
    obtain ⟨-, rfl⟩ := Prod.mk.inj (Option.some.inj hsecond)
    have hbuf : (List.replicate 512 2).take 512 = bytesAt tornChannel.device 0 512 :=
      hcoh _ rfl _ List.mem_cons_self 0 rfl
    have hbyte := congrArg (fun l => l[0]?) hbuf
    simp only [bytesAt_getElem? tornChannel.device 0 512 0 (by decide)] at hbyte
    exact absurd (Option.some.inj hbyte) (by decide)

def wholeCalls : List Call := [.write false 3 1 (List.replicate 512 1), .read true 3 1]

theorem runsWell_wholeCalls : RunsWell wholeCalls (freshChannel [some 512]) := by
  apply runsWell_of_neverTorn
  · exact freshChannel_sound _
  · exact forall_mem_cons.mpr ⟨⟨by decide, by decide, length_replicate⟩,
      forall_mem_singleton.mpr ⟨by decide, by decide⟩⟩
  · refine ⟨?_, fun r ch' _ => ⟨id, fun _ _ _ => trivial⟩⟩
    rintro ⟨_, hne⟩
    exact hne rfl

end Ocfs2Tools.UnixIo
