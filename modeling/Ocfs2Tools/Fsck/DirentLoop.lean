import Ocfs2Tools.Fsck.DirentRepair

/-!
# What the entry loop of pass 2 leaves

On a block that is `Repairable` the loop ends, and the entries tile the block with lengths that
are in order. This goes by the invariant `LoopInv`: what is before the offset is tiled already,
and what is behind it has not been touched. Without compression what is before the offset stays
as it is, and so the converse holds too.
-/

namespace Ocfs2Tools.Pass2

open Dir

variable {b b' low : Buf} {a left : Nat} {w : Walk} {blocksize : Nat} {seen seen' : Seen}

/-! ### What is tiled so far -/

/-- The state at the head of the loop: the entries from `start` tile the block up to
    `offset`, the last of them at `prev`. With the entries moved together `writeOff` is
    where the last one is, and an entry in use has a name. -/
structure LoopInv (w : Walk) (start : Nat) (b : Buf) (offset : Nat) (prev : Option Nat)
    (writeOff : Nat) : Prop where
  aligned : offset % 4 = 0
  first : prev = none → offset = start ∧ writeOff = start
  last : ∀ p, prev = some p → Tiled b p start ∧ EntryOk b p ∧ p + recLen b p = offset
  writeOff : ∀ p, prev = some p → w.compressDirs = true → writeOff = p
  named : ∀ p, prev = some p → w.compressDirs = true → inode b p ≠ 0 → nameLen b p ≠ 0

variable {start offset wo : Nat} {prev : Option Nat}

theorem LoopInv.init (w : Walk) (b : Buf) (hstart : start % 4 = 0) :
    LoopInv w start b start none start :=
  ⟨hstart, fun _ => ⟨rfl, rfl⟩, fun p h => (by cases h), fun p h => (by cases h),
    fun p h => (by cases h)⟩

section Inv

variable (h : LoopInv w start b offset prev wo)

include h

theorem LoopInv.tiled : Tiled b offset start := by
  cases hp : prev with
  | none =>
    rw [(h.first hp).1]
    exact .nil
  | some p =>
    obtain ⟨ht, hok, hend⟩ := h.last p hp
    rw [← hend]
    exact ht.snoc hok

theorem LoopInv.tiledTo (hc : w.compressDirs = true) : Tiled b wo start := by
  cases hp : prev with
  | none =>
    rw [(h.first hp).2]
    exact .nil
  | some p =>
    rw [h.writeOff p hp hc]
    exact (h.last p hp).1

theorem LoopInv.congr (hb : ∀ x < offset, b' x = b x) : LoopInv w start b' offset prev wo := by
  have hhead : ∀ p, prev = some p → SameFor b b' p 12 := by
    intro p hp x _ hx
    obtain ⟨-, hok, hend⟩ := h.last p hp
    have hmin : 16 ≤ recLen b p := hok.min
    exact hb x (by omega)
  refine ⟨h.aligned, h.first, ?_, h.writeOff, ?_⟩
  · intro p hp
    obtain ⟨ht, hok, hend⟩ := h.last p hp
    refine ⟨ht.congr fun x _ hx => hb x (by omega), hok.congr (hhead p hp), ?_⟩
    rw [recLen_congr (hhead p hp), hend]
  · intro p hp hc
    rw [inode_congr (hhead p hp), nameLen_congr (hhead p hp)]
    exact h.named p hp hc

end Inv

/-! ### Placing an entry -/

/-- Inode, type and name of entries. -/
abbrev Listing : Type := List (Nat × Nat × List UInt8)

def live (b : Buf) (a : Nat) : Listing := if inode b a = 0 then [] else [ident b a]

theorem live_congr (hok : EntryOk b a) (hb : SameFor b b' a (recLen b a)) :
    live b' a = live b a := by
  have hname := hok.name
  have hm : dirMemberLen = 12 := rfl
  unfold dirRecLen at hname
  have hhead : SameFor b b' a 12 := fun x h1 h2 => hb x h1 (by omega)
  have hbytes : bytesAt b' (a + dirMemberLen) (nameLen b a) =
      bytesAt b (a + dirMemberLen) (nameLen b a) :=
    bytesAt_congr fun x h1 h2 => hb x (by omega) (by omega)
  rw [live, live, ident, ident, inode_congr hhead, nameLen_congr hhead, hbytes, fileType,
    fileType, hhead (a + 11) (by omega) (by omega)]

theorem live_setRecLen (b : Buf) (a r : Nat) : live (setRecLen b a r) a = live b a := by
  have hm : dirMemberLen = 12 := rfl
  rw [live, live, ident, ident, inode_setRecLen, nameLen_setRecLen, fileType, fileType,
    setRecLen_outside (by omega),
    bytesAt_congr fun x h1 h2 => setRecLen_outside (by omega)]

/-- What stands before the place `q` of an entry: nothing or a deleted record was given up, or
    the record before gave up its slack. -/
inductive Room (b m : Buf) : Option Nat → Nat → Nat → Prop where
  | onto {prev : Option Nat} {q : Nat} (deleted : ∀ p, prev = some p → inode b p = 0)
    (same : ∀ x < q, m x = b x) : Room b m prev q q
  | behind (p : Nat) (same : ∀ x < p, m x = b x) (ok : EntryOk m p) (used : inode m p ≠ 0)
    (tight : recLen m p = dirRecLen (nameLen m p)) (listed : live m p = live b p) :
    Room b m (some p) p (p + recLen m p)

/-- The entry at `offset` of `b` is at `q` in `m`, and reaches as far as before. -/
structure Placed (b m : Buf) (offset q : Nat) : Prop where
  ok : EntryOk m q
  reach : q + recLen m q = offset + recLen b offset
  name : nameLen m q = nameLen b offset
  inode : inode m q = inode b offset
  listed : live m q = live b offset
  behind : ∀ x, offset + recLen b offset ≤ x → m x = b x

theorem Room.congr {m m' : Buf} {q : Nat} (h : Room b m prev wo q) (hm : ∀ x < q, m' x = m x) :
    Room b m' prev wo q := by
  cases h with
  | onto deleted same => exact .onto deleted fun x hx => (hm x hx).trans (same x hx)
  | behind _ same ok used tight listed =>
    have hmin : 16 ≤ recLen m wo := ok.min
    have hhead : SameFor m m' wo 12 := fun x _ hx => hm x (by omega)
    rw [← recLen_congr hhead]
    refine .behind wo (fun x hx => (hm x (by omega)).trans (same x hx)) (ok.congr hhead) ?_ ?_ ?_
    · rw [inode_congr hhead]
      exact used
    · rw [recLen_congr hhead, nameLen_congr hhead]
      exact tight
    · rw [live_congr ok fun x _ hx => hm x hx, listed]

theorem trimmed (hok : EntryOk b a) (hlive : inode b a ≠ 0) (hname : nameLen b a ≠ 0) :
    Room b (setRecLen b a (dirRecLen (nameLen b a))) (some a) a (a + dirRecLen (nameLen b a)) := by
  have hle := hok.name
  have hlt := recLen_lt b a
  have hrec : recLen (setRecLen b a (dirRecLen (nameLen b a))) a = dirRecLen (nameLen b a) :=
    recLen_setRecLen (by omega)
  have hroom : Room b (setRecLen b a (dirRecLen (nameLen b a))) (some a) a
      (a + recLen (setRecLen b a (dirRecLen (nameLen b a))) a) := by
    refine .behind a (fun x hx => setRecLen_outside (by omega)) ⟨?_, ?_, ?_⟩ ?_ ?_
      (live_setRecLen b a _)
    · rw [hrec]
      unfold dirRecLen
      omega
    · rw [hrec]
      unfold dirRecLen
      omega
    · exact Nat.le_of_eq (by rw [hrec, nameLen_setRecLen])
    · rw [inode_setRecLen]
      exact hlive
    · rw [hrec, nameLen_setRecLen]
  rw [hrec] at hroom
  exact hroom

theorem moved {r : Nat} {m : Buf}
    (hm : setRecLen (moveBytes b wo a (dirRecLen (nameLen b a))) wo r = m) (hok : EntryOk b a)
    (hwo : wo < a) (hal : a % 4 = 0) (hal' : wo % 4 = 0) (hr : r = recLen b a + a - wo)
    (hlt : a + recLen b a < 65536) : Placed b m a wo ∧ ∀ x < wo, m x = b x := by
  have hlen : dirMemberLen = 12 := rfl
  have hge : nameLen b a + 12 ≤ dirRecLen (nameLen b a) := by
    unfold dirRecLen
    omega
  have hmove : ∀ i < nameLen b a + 12, (i < 8 ∨ 10 ≤ i) → m (wo + i) = b (a + i) := by
    intro i hi h8
    rw [← hm, setRecLen_outside (by omega), moveBytes_inside (by omega) (by omega),
      Nat.add_sub_cancel_left]
  have hbytes : ∀ k n, k + n ≤ nameLen b a + 12 → (k + n ≤ 8 ∨ 10 ≤ k) →
      bytesAt m (wo + k) n = bytesAt b (a + k) n := by
    intro k n hk h8
    apply List.map_congr_left
    intro i hi
    rw [List.mem_range] at hi
    rw [Nat.add_assoc, hmove (k + i) (by omega) (by omega), ← Nat.add_assoc]
  have hrec : recLen m wo = r := hm ▸ recLen_setRecLen (by omega)
  have hname : nameLen m wo = nameLen b a := by
    rw [nameLen, hmove 10 (by omega) (by omega), ← nameLen]
  have hino : inode m wo = inode b a := congrArg leNat (hbytes 0 8 (by omega) (by omega))
  have h1 := hok.aligned
  have h2 := hok.min
  have h3 := hok.name
  refine ⟨⟨⟨by omega, by omega, by rw [hname]; omega⟩, by omega, hname, hino, ?_, ?_⟩, ?_⟩
  · rw [live, live, ident, ident, hino, hname, fileType, fileType,
      hmove 11 (by omega) (by omega), hbytes dirMemberLen _ (by omega) (by omega)]
  · intro x hx
    rw [← hm, setRecLen_outside (by omega), moveBytes_outside (by omega)]
  · intro x hx
    rw [← hm, setRecLen_outside (by omega), moveBytes_outside (by omega)]

section Place

variable (h : LoopInv w start b offset prev wo)

include h

theorem LoopInv.room (hc : w.compressDirs = true) :
    ∃ b1 wo1, (∀ x, offset ≤ x → b1 x = b x) ∧ wo1 ≤ offset ∧ wo1 % 4 = 0 ∧
      Room b b1 prev wo wo1 ∧ placeDirent true b offset prev wo =
        if wo1 < offset then
          (setRecLen (moveBytes b1 wo1 offset (dirRecLen (nameLen b1 offset))) wo1
            (recLen b offset + offset - wo1), wo1, wo1)
        else (b1, offset, wo1) := by
  have hal := h.aligned
  cases hp : prev with
  | none =>
    have hwo := h.first hp
    exact ⟨b, wo, fun _ _ => rfl, by omega, by omega, .onto nofun fun _ _ => rfl, rfl⟩
  | some p =>
    obtain ⟨-, hok, hend⟩ := h.last p hp
    obtain rfl := h.writeOff p hp hc
    have hmin : 16 ≤ recLen b wo := hok.min
    have hal' := hok.aligned
    by_cases hlive : inode b wo ≠ 0
    · -- the entry before gives up the space behind its name
      have hle := hok.name
      have hlt := recLen_lt b wo
      refine ⟨setRecLen b wo (dirRecLen (nameLen b wo)), wo + dirRecLen (nameLen b wo),
        fun x hx => setRecLen_outside (by omega), by omega, ?_,
        trimmed hok hlive (h.named wo hp hc hlive), ?_⟩
      · unfold dirRecLen
        omega
      · simp only [placeDirent, Bool.true_eq_false, if_false, if_pos hlive,
          recLen_setRecLen (show dirRecLen (nameLen b wo) < 65536 by omega)]
    · -- the entry before is not in use: it is written over
      refine ⟨b, wo, fun _ _ => rfl, by omega, by omega, .onto ?_ fun _ _ => rfl, ?_⟩
      · intro p hp
        cases hp
        exact not_not.1 hlive
      · simp only [placeDirent, Bool.true_eq_false, if_false, if_neg hlive]

/-- **What `placeDirent` does** to an entry that is in order. -/
theorem LoopInv.placeDirent (hc : w.compressDirs = true) (hok : EntryOk b offset)
    (hlt : offset + recLen b offset < 65536) :
    ∃ m q, Pass2.placeDirent true b offset prev wo = (m, q, q) ∧ Room b m prev wo q ∧
      Placed b m offset q := by
  obtain ⟨b1, wo1, hsame, hle, hal1, hroom, hplace⟩ := h.room hc
  have hhead : SameFor b b1 offset 12 := fun x h1 _ => hsame x h1
  have hok1 := hok.congr hhead
  have hr := recLen_congr hhead
  have hback : ∀ {m q}, Placed b1 m offset q → Placed b m offset q := by
    intro m q hp
    refine ⟨hp.ok, ?_, hp.name.trans (nameLen_congr hhead), hp.inode.trans (inode_congr hhead),
      ?_, ?_⟩
    · rw [hp.reach, hr]
    · rw [hp.listed, live_congr hok fun x h1 _ => hsame x h1]
    · intro x hx
      rw [hp.behind x (by omega), hsame x (by omega)]
  split at hplace
  · next hmove =>
    rw [← hr] at hplace
    obtain ⟨hplaced, hbelow⟩ := moved rfl hok1 hmove h.aligned hal1 rfl (by omega)
    exact ⟨_, wo1, hplace, hroom.congr hbelow, hback hplaced⟩
  · obtain rfl : wo1 = offset := by omega
    exact ⟨b1, wo1, hplace, hroom, hback ⟨hok1, rfl, rfl, rfl, rfl, fun _ _ => rfl⟩⟩

/-- **An accepted entry** keeps the invariant, and nothing behind it changes. -/
theorem LoopInv.accept (hok : EntryOk b offset) (hlt : offset + recLen b offset < 65536)
    (hnamed : w.compressDirs = true → inode b offset ≠ 0 → nameLen b offset ≠ 0) :
    ∃ b1 p wo1, Pass2.placeDirent w.compressDirs b offset prev wo = (b1, p, wo1) ∧
      LoopInv w start b1 (offset + recLen b offset) (some p) wo1 ∧
      ∀ x, offset + recLen b offset ≤ x → b1 x = b x := by
  have hal : (offset + recLen b offset) % 4 = 0 := by
    have h1 := h.aligned
    have h2 := hok.aligned
    omega
  cases hc : w.compressDirs with
  | false =>
    have hno : w.compressDirs ≠ true := by simp [hc]
    refine ⟨b, offset, wo, rfl, ⟨hal, nofun, ?_, fun _ _ hc' => absurd hc' hno,
      fun _ _ hc' => absurd hc' hno⟩, fun _ _ => rfl⟩
    intro p hp
    cases hp
    exact ⟨h.tiled, hok, rfl⟩
  | true =>
    obtain ⟨m, q, hplace, hroom, hplaced⟩ := h.placeDirent hc hok hlt
    refine ⟨m, q, q, hplace, ⟨hal, nofun, ?_, fun p hp _ => Option.some.inj hp, ?_⟩, hplaced.behind⟩
    · intro p hp
      cases hp
      refine ⟨?_, hplaced.ok, hplaced.reach⟩
      cases hroom with
      | onto _ same => exact (h.tiledTo hc).congr fun x _ hx => same x hx
      | behind _ same ok _ _ _ => exact ((h.tiledTo hc).congr fun x _ hx => same x hx).snoc ok
    · intro p hp _
      cases hp
      rw [hplaced.inode, hplaced.name]
      exact hnamed hc

end Place

/-! ### Whole runs -/

/-- The entries of the block end at a multiple of 4, and offsets fit `rec_len`. -/
structure Walk.Ok (w : Walk) : Prop where
  aligned : w.stop % 4 = 0
  small : w.stop < 65536

theorem LoopInv.next (hw : w.Ok) (h : LoopInv w start b offset prev wo) (hlt : offset < w.stop)
    (hok : LengthsOk (recLen b offset) (nameLen b offset) (w.stop - offset))
    (hcheck : checkDirent w seen b offset = some (seen', b')) (hfits : EntryOk b' offset)
    (hnamed : w.compressDirs = true → inode b' offset ≠ 0 → nameLen b' offset ≠ 0) :
    ∃ b1 p wo1, (∀ fuel, direntLoop w (fuel + 1) seen b offset prev wo =
        direntLoop w fuel seen' b1 (offset + recLen b' offset) (some p) wo1) ∧
      LoopInv w start b1 (offset + recLen b' offset) (some p) wo1 ∧
      ∀ x, offset + recLen b' offset ≤ x → b1 x = b' x := by
  have hle := hok.le
  have hsmall := hw.small
  have hshort := (checkDirent_shortened hok hcheck).2.2
  have hinv : LoopInv w start b' offset prev wo := h.congr (checkDirent_below hcheck)
  obtain ⟨b1, p, wo1, hplace, hinv1, hframe⟩ := hinv.accept hfits (by omega) hnamed
  refine ⟨b1, p, wo1, fun fuel => ?_, hinv1, hframe⟩
  rw [direntLoop_accept w fuel seen prev wo hlt hok, hcheck, Option.bind_some, hplace]

theorem direntLoop_settles (seen : Seen) (prev : Option Nat) (wo : Nat) (hw : w.Ok)
    (hlt : offset + 16 ≤ w.stop) (hal : offset % 4 = 0)
    (hh : ¬HeaderOnly b offset (w.stop - offset)) :
    ∃ k, ∀ fuel, direntLoop w (fuel + k) seen b offset prev wo =
      direntLoop w fuel seen (settle w.blocksize b offset (w.stop - offset)) offset prev wo := by
  have hal' := hw.aligned
  have hsmall := hw.small
  by_cases hok : LengthsOk (recLen b offset) (nameLen b offset) (w.stop - offset)
  · exact ⟨0, fun fuel => by rw [settle_of_ok hok]; rfl⟩
  obtain ⟨b1, hfix, hcases⟩ := settle_cases (by omega) (by omega) (by omega) hh w.blocksize hok
  have hone : ∀ fuel, direntLoop w (fuel + 1) seen b offset prev wo =
      direntLoop w fuel seen b1 offset prev wo := by
    intro fuel
    rw [direntLoop_fix w fuel seen prev wo (by omega) hok, hfix, Option.bind_some]
  rcases hcases with ⟨-, hs⟩ | ⟨hbad, -, b2, hfix2, -, hs⟩
  · exact ⟨1, fun fuel => by rw [hone, hs]⟩
  · refine ⟨2, fun fuel => ?_⟩
    rw [hone, direntLoop_fix w fuel seen prev wo (by omega) hbad, hfix2, Option.bind_some, hs]

/-- **A repairable block** is repaired, whatever the bytes before the offset are, as long as they
    are tiled. -/
theorem run_of_repairable (hw : w.Ok) (h : Repairable w seen b offset) :
    ∀ low prev wo, LoopInv w start (splice low b offset) offset prev wo →
      ∃ fuel seen' out, direntLoop w fuel seen (splice low b offset) offset prev wo =
        some (seen', out) ∧ Tiled out w.stop start := by
  have haligned := hw.aligned
  have hsmall := hw.small
  induction h with
  | done seen b =>
    intro low prev wo hinv
    exact ⟨1, seen, _, direntLoop_done w 0 seen _ prev wo (Nat.le_refl _), hinv.tiled⟩
  | record seen seen₁ b b₁ a room header check fits named rest ih =>
    intro low prev wo hinv
    have hh : ¬HeaderOnly (splice low b a) a (w.stop - a) := headerOnly_splice.not.2 header
    have hal := hinv.aligned
    obtain ⟨k, hsettle⟩ := direntLoop_settles seen prev wo hw room hal hh
    have hok := settle_ok (by omega) (by omega) (by omega) hh w.blocksize
    rw [settle_splice] at hok hsettle
    have hcheck := checkDirent_splice w seen low (settle w.blocksize b a (w.stop - a)) a
    rw [check, Option.map_some] at hcheck
    have hle := Nat.le_refl a
    have hr := @recLen_splice b₁ a low a hle
    have hinv₁ : LoopInv w start (splice low (settle w.blocksize b a (w.stop - a)) a) a prev wo :=
      hinv.congr fun x hx => by rw [splice_of_lt hx, splice_of_lt hx]
    have hfits : EntryOk (splice low b₁ a) a :=
      fits.congr fun x hx _ => splice_of_le hx
    obtain ⟨b₂, p, wo₂, hstep, hinv₂, hframe⟩ := hinv₁.next hw (by omega) hok hcheck hfits (by
      rw [inode_splice hle, nameLen_splice hle]
      exact named)
    rw [hr] at hstep hinv₂ hframe
    -- behind the entry the block is as the checks leave it
    have hb₂ : b₂ = splice b₂ b₁ (a + recLen b₁ a) :=
      eq_splice (fun _ _ => rfl) fun x hx => by rw [hframe x hx, splice_of_le (by omega)]
    rw [hb₂] at hinv₂
    obtain ⟨fuel, seen', out, hrun, htiled⟩ := ih b₂ (some p) wo₂ hinv₂
    refine ⟨fuel + 1 + k, seen', out, ?_, htiled⟩
    rw [hsettle, hstep, hb₂]
    exact hrun
  | remove seen b a room header fits rest ih =>
    intro low prev wo hinv
    have hm : dirMemberLen = 12 := rfl
    have hh : HeaderOnly (splice low b a) a (w.stop - a) := headerOnly_splice.2 header
    have hbad : ¬LengthsOk (recLen (splice low b a) a) (nameLen (splice low b a) a)
        (w.stop - a) := by
      intro h
      have h1 : 16 ≤ recLen (splice low b a) a := h.min
      have h2 := hh.1
      omega
    have hfix : fixDirentLengths w.blocksize (splice low b a) a (w.stop - a) =
        some (splice low (removeDirent b a (w.stop - a)) a) := by
      rw [fixDirentLengths_splice, fixDirentLengths_remove header (by omega), if_neg (by omega)]
      rfl
    obtain ⟨fuel, seen', out, hrun, htiled⟩ := ih low prev wo
      (hinv.congr (fixDirentLengths_below hfix))
    refine ⟨fuel + 1, seen', out, ?_, htiled⟩
    rw [direntLoop_fix w fuel seen prev wo (by omega) hbad, hfix]
    exact hrun

/-- Less than 16 bytes before the end the loop does not get on: no lengths are in order there,
    and no repair changes the place. -/
theorem direntLoop_stuck (w : Walk) (hlt : offset < w.stop) (hend : w.stop < offset + 16)
    (fuel seen b) : direntLoop w fuel seen b offset prev wo = none := by
  induction fuel generalizing b with
  | zero => rfl
  | succ fuel ih =>
    have hbad : ¬LengthsOk (recLen b offset) (nameLen b offset) (w.stop - offset) := by
      intro h
      have h1 : 16 ≤ recLen b offset := h.min
      have h2 := h.le
      omega
    rw [direntLoop_fix w fuel seen prev wo hlt hbad]
    cases fixDirentLengths w.blocksize b offset (w.stop - offset) with
    | none => rfl
    | some b1 => exact ih b1

section Plain

variable (hc : w.compressDirs = false)

include hc

theorem direntLoop_plain (fuel prev wo) (h : a < w.stop)
    (hok : LengthsOk (recLen b a) (nameLen b a) (w.stop - a)) :
    direntLoop w (fuel + 1) seen b a prev wo = (checkDirent w seen b a).bind fun p =>
      direntLoop w fuel p.1 p.2 (a + recLen p.2 a) (some a) wo := by
  rw [direntLoop_accept w fuel seen prev wo h hok, hc]
  rfl

theorem direntLoop_below (fuel seen b offset prev wo seen' out)
    (hrun : direntLoop w fuel seen b offset prev wo = some (seen', out)) :
    ∀ x < offset, out x = b x := by
  induction fuel generalizing seen b offset prev wo with
  | zero => cases hrun
  | succ fuel ih =>
    intro x hx
    by_cases hend : w.stop ≤ offset
    · rw [direntLoop_done w fuel seen b prev wo hend] at hrun
      cases hrun
      rfl
    by_cases hok : LengthsOk (recLen b offset) (nameLen b offset) (w.stop - offset)
    · rw [direntLoop_plain hc fuel prev wo (by omega) hok] at hrun
      obtain ⟨⟨seen₁, b₁⟩, hcheck, hrun⟩ := Option.bind_eq_some_iff.1 hrun
      exact (ih _ _ _ _ _ hrun x (by omega)).trans (checkDirent_below hcheck x hx)
    · rw [direntLoop_fix w fuel seen prev wo (by omega) hok] at hrun
      obtain ⟨b1, hfix, hrun⟩ := Option.bind_eq_some_iff.1 hrun
      rw [ih _ _ _ _ _ hrun x hx, fixDirentLengths_below hfix x hx]

/-- **The converse** without compression, by induction on the turns. -/
theorem repairable_of_run (hw : w.Ok) (fuel seen b offset prev wo seen' out)
    (hal : offset % 4 = 0) (hle : offset ≤ w.stop)
    (hrun : direntLoop w fuel seen b offset prev wo = some (seen', out))
    (htiled : Tiled out w.stop offset) : Repairable w seen b offset := by
  have haligned := hw.aligned
  have hsmall := hw.small
  induction fuel generalizing seen b offset prev wo with
  | zero => cases hrun
  | succ fuel ih =>
    by_cases hend : w.stop ≤ offset
    · obtain rfl : offset = w.stop := by omega
      exact .done seen b
    have room : offset + 16 ≤ w.stop := by
      by_contra hno
      rw [direntLoop_stuck w (by omega) (by omega)] at hrun
      cases hrun
    by_cases hok : LengthsOk (recLen b offset) (nameLen b offset) (w.stop - offset)
    · rw [direntLoop_plain hc fuel prev wo (by omega) hok] at hrun
      obtain ⟨⟨seen₁, b₁⟩, hcheck, hrun⟩ := Option.bind_eq_some_iff.1 hrun
      dsimp only at hrun
      obtain ⟨hal₁, h12, hshort⟩ := checkDirent_shortened hok hcheck
      have hfit := hok.le
      -- what the checks left of the entry is still there in the end
      have hhead : SameFor out b₁ offset 12 := fun x _ hx =>
        (direntLoop_below hc _ _ _ _ _ _ _ _ hrun x (by omega)).symm
      rcases htiled with _ | ⟨_, ok, rest⟩
      · omega
      rw [← recLen_congr hhead] at rest
      refine .record seen seen₁ b b₁ offset room (fun h => ?_) ?_ (ok.congr hhead)
        (fun hc' => absurd hc' (by rw [hc]; decide)) (ih _ _ _ _ _ (by omega) (by omega) hrun rest)
      · have h1 := hok.min
        rw [h.1] at h1
        exact absurd h1 (by decide)
      · rw [settle_of_ok hok]
        exact hcheck
    · rw [direntLoop_fix w fuel seen prev wo (by omega) hok] at hrun
      obtain ⟨b₁, hfix, hrun⟩ := Option.bind_eq_some_iff.1 hrun
      have hrest := ih _ _ _ _ _ hal hle hrun htiled
      have hm : dirMemberLen = 12 := rfl
      by_cases hh : HeaderOnly b offset (w.stop - offset)
      · rw [fixDirentLengths_remove hh (by omega)] at hfix
        split at hfix
        · cases hfix
        · cases hfix
          exact .remove seen b offset room hh (by omega) hrest
      · obtain ⟨hh₁, hs⟩ := settle_fix (by omega) (by omega) (by omega) hh hok hfix
        cases hrest with
        | done => omega
        | record _ seen₁ _ b₂ _ _ _ check fits named rest =>
          rw [hs] at check
          exact .record seen seen₁ b b₂ offset room hh check fits named rest
        | remove _ _ _ _ header _ _ => exact absurd header hh₁

end Plain

/-- A block of 512 bytes without a trailer, not the first one of its directory. Every inode is a
    file that is in use, and every question is answered yes. -/
def plainWalk : Walk where
  blocksize := 512
  stop := 512
  compressDirs := false
  ino := 9
  blkno := 40
  blkcount := 1
  answer := fun _ _ => true
  outOfRange := fun _ => false
  allocated := fun _ => true
  expectedType := fun _ => 1
  isDir := fun _ => false

theorem plainWalk_ok : plainWalk.Ok := ⟨by decide, by decide⟩

/-- A record of 16 bytes that is only a header, behind an entry `a`, with zeros behind it. -/
def headerRecord : Buf :=
  writeBytes (writeBytes (fun _ => 0) 0 [7, 0, 0, 0, 0, 0, 0, 0, 16, 0, 1, 1, 97]) 24 [12]

def longEntry : Buf := setNameLen (setRecLen (fun _ => 0) 0 500) 0 1

/-- An entry that is only a header, before one of 500 bytes. -/
def headerEntry : Buf := setRecLen (setNameLen (setRecLen (fun _ => 0) 12 500) 12 1) 0 12

/-- An entry `x` over all of a first block. -/
def clobberedEntry : Buf :=
  writeBytes (writeBytes (fun _ => 0) 0 [9, 0, 0, 0, 0, 0, 0, 0, 0, 2, 1, 1, 120]) 24 [216, 1]

def firstWalk : Walk := { plainWalk with blkcount := 0 }

theorem clobberedEntry_stuck (fuel : Nat) :
    direntLoop firstWalk fuel ⟨[], []⟩ clobberedEntry 0 none 0 = none := by
  have hfirst : (checkDirent firstWalk ⟨[], []⟩ clobberedEntry 0).map (fun p =>
      (recLen p.2 0, recLen p.2 16, nameLen p.2 16,
        (checkDirent firstWalk p.1 p.2 16).map fun q => recLen q.2 16)) =
      some (16, 484, 0, some 484) := by decide +kernel
  cases fuel with
  | zero => rfl
  | succ fuel =>
    rw [direntLoop_plain rfl fuel none 0 (by decide) (by decide)]
    obtain ⟨p, hp, heq⟩ := Option.map_eq_some_iff.1 hfirst
    simp only [Prod.mk.injEq] at heq
    obtain ⟨h0, h1, h2, hsecond⟩ := heq
    rw [hp, Option.bind_some, h0]
    cases fuel with
    | zero => rfl
    | succ fuel =>
      rw [direntLoop_plain rfl fuel (some 0) 0 (by decide) (by rw [h1, h2]; decide)]
      obtain ⟨q, hq, hlen⟩ := Option.map_eq_some_iff.1 hsecond
      rw [hq, Option.bind_some, hlen]
      exact direntLoop_stuck firstWalk (by decide) (by decide) fuel _ _

end Ocfs2Tools.Pass2
