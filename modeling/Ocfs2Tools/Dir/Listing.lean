import Ocfs2Tools.Dir.Iterate

/-!
# What an iteration over a directory lists

A directory is a list of areas, each of which should be tiled by its entries: the blocks up
to the trailer or the end, or the data of an inline directory. What should be listed are the
live entries up to the first malformed one. The code walks each block to its end by a laxer
check; on an inline directory it walks on into what lies behind the data.
-/

namespace Ocfs2Tools.Dir

open List Prog

variable {κ : Type} {fs : Filesys} {env : DirEnv} {di : Dinode} {b : Buf} {s : St}
  {a stop blkno : Nat}

/-! ### The areas of a directory -/

/-- A run of entries: the bytes `[start, stop)` of a block. -/
structure Area where
  blocknr : Nat
  buf : Buf
  start : Nat
  stop : Nat

/-- The header and the name of the entry fit, it is aligned, and ends at or before `stop`. -/
def soundAt (b : Buf) (stop a : Nat) : Bool :=
  decide (a + recLen b a ≤ stop) && decide (12 ≤ recLen b a) && recLen b a % 4 == 0 &&
    decide (nameLen b a + 12 ≤ recLen b a)

/-- The entries of an area, and where they end: at its end, or at a malformed entry. -/
def soundWalk (b : Buf) (stop a : Nat) : List Nat × Nat := walk (soundAt b stop) (recLen b) stop a

def Area.walk (a : Area) : List Nat × Nat := soundWalk a.buf a.stop a.start

def Area.malformed (a : Area) : Bool := decide (a.walk.2 < a.stop)

def callAt (blocknr : Nat) (b : Buf) (a : Nat) : DirCall := ⟨direntAt b a, blocknr, a⟩

def Area.live (a : Area) : List DirCall :=
  (a.walk.1.filter fun x => inode a.buf x != 0).map (callAt a.blocknr a.buf)

/-- The entries of one area after the other, up to the first that has a malformed one, and
    whether there is one. -/
def outcome (f : Area → List DirCall × Bool) : List Area → List DirCall × Bool
  | [] => ([], false)
  | a :: as => if (f a).2 then ((f a).1, true) else ((f a).1 ++ (outcome f as).1, (outcome f as).2)

/-- What should be listed of a directory with the areas `as`. -/
def expected (as : List Area) : List DirCall × Bool := outcome (fun a => (a.live, a.malformed)) as

def resultOf (corrupt : Bool) : Except Errcode Unit :=
  if corrupt then .error .dirCorrupted else .ok ()

/-! ### The two checks -/

theorem entryPasses_iff : entryPasses fs b a = true ↔ a + recLen b a ≤ fs.fsBlocksize ∧
    8 ≤ recLen b a ∧ recLen b a % 4 = 0 ∧ nameLen b a + 8 ≤ recLen b a := by
  simp [entryPasses, and_assoc]

theorem soundAt_iff : soundAt b stop a = true ↔ a + recLen b a ≤ stop ∧
    12 ≤ recLen b a ∧ recLen b a % 4 = 0 ∧ nameLen b a + 12 ≤ recLen b a := by
  simp [soundAt, and_assoc]

theorem entryPasses_pos (fs : Filesys) (b : Buf) (a : Nat) (h : entryPasses fs b a = true) :
    0 < recLen b a := by
  have := entryPasses_iff.mp h
  omega

theorem soundAt_pos (b : Buf) (stop a : Nat) (h : soundAt b stop a = true) : 0 < recLen b a := by
  have := soundAt_iff.mp h
  omega

/-- The walk of the code, to the end of the block. -/
def laxWalk (fs : Filesys) (b : Buf) (a : Nat) : List Nat × Nat :=
  walk (entryPasses fs b) (recLen b) fs.fsBlocksize a

theorem laxWalk_eq (hstop : stop ≤ fs.fsBlocksize) (a : Nat) :
    laxWalk fs b a = ((soundWalk b stop a).1 ++ (laxWalk fs b (soundWalk b stop a).2).1,
      (laxWalk fs b (soundWalk b stop a).2).2) := by
  refine walk_append (entryPasses_pos fs b) (fun _ hx => ?_) hstop a
  have := soundAt_iff.mp hx
  exact entryPasses_iff.mpr ⟨by omega, by omega, this.2.2.1, by omega⟩

theorem soundWalk_le (ha : a ≤ stop) : (soundWalk b stop a).2 ≤ stop :=
  walk_le (soundAt_pos b stop) (fun _ hx => (soundAt_iff.mp hx).1) ha

/-! ### The loop of `ocfs2_process_dir_entry` -/

def quiet (note : DirCall → κ → κ) : DirFunc κ := fun c p => (false, note c p)

def callsOn (fs : Filesys) (env : DirEnv) (di : Dinode) (blocknr : Nat) (b : Buf)
    (offs : List Nat) : List DirCall :=
  (offs.filter fun a => !entrySkipped fs env di .none b a).map (callAt blocknr b)

def tell (note : DirCall → κ → κ) (p : κ) (cs : List DirCall) : κ :=
  cs.foldl (fun p c => note c p) p

theorem tell_append (note : DirCall → κ → κ) (p : κ) (as bs : List DirCall) :
    tell note p (as ++ bs) = tell note (tell note p as) bs := foldl_append

theorem soundWalk_step (ha : a < stop) (hok : soundAt b stop a = true) : soundWalk b stop a =
    (a :: (soundWalk b stop (a + recLen b a)).1, (soundWalk b stop (a + recLen b a)).2) :=
  walk_step (soundAt_pos b stop) ha hok

theorem processDirEntry_quiet (note : DirCall → κ → κ) (blocknr : Nat) (b : Buf)
    (n offset entry nextReal p) (hn : fs.fsBlocksize - offset ≤ n) :
    processDirEntry fs env di .none (xlateFunc (quiet note)) blocknr b n offset entry nextReal p =
      (if (laxWalk fs b offset).2 < fs.fsBlocksize then .corrupted else .through, tell note p
      (callsOn fs env di blocknr b (laxWalk fs b offset).1)) := by
  induction n generalizing offset entry nextReal p with
  | zero =>
    have hw : laxWalk fs b offset = ([], offset) := walk_stop (by omega)
    rw [hw, if_neg (by omega)]
    rfl
  | succ n ih =>
    rw [processDirEntry]
    by_cases hlt : offset < fs.fsBlocksize
    · rw [if_pos hlt]
      by_cases hpass : entryPasses fs b offset = true
      · have hpos := entryPasses_pos fs b offset hpass
        have hw : laxWalk fs b offset = (offset :: (laxWalk fs b (offset + recLen b offset)).1,
            (laxWalk fs b (offset + recLen b offset)).2) :=
          walk_step (entryPasses_pos fs b) hlt hpass
        have hnext : nextOffset .none b offset = offset + recLen b offset := rfl
        by_cases hskip : entrySkipped fs env di .none b offset = true
        · simp only [hpass, Bool.true_eq_false, if_false, hskip, if_true, hnext]
          rw [ih _ _ _ _ (by omega), hw]
          simp [callsOn, hskip]
        · have hcall : ∀ c, xlateFunc (quiet note) c p =
              (false, note ⟨c.dirent, c.blocknr, c.offset⟩ p) := fun _ => rfl
          simp only [hpass, Bool.true_eq_false, Bool.false_eq_true, if_false, hskip, hnext, hcall]
          rw [ih _ _ _ _ (by omega), hw]
          simp [callsOn, hskip, tell, callAt]
      · have hw : laxWalk fs b offset = ([], offset) := walk_stop fun h => hpass h.2
        rw [hw, if_pos (by simpa using hpass), if_pos hlt]
        rfl
    · have hw : laxWalk fs b offset = ([], offset) := walk_stop fun h => hlt h.1
      rw [if_neg hlt, hw, if_neg hlt]
      rfl

/-! ### What one block is listed as -/

/-- The lengths in the header of an entry are wrong on their own. -/
def headerBad (b : Buf) (a : Nat) : Bool :=
  decide (recLen b a < 12) || recLen b a % 4 != 0 || decide (recLen b a < nameLen b a + 12)

/-- Reading a block fails exactly when the first malformed entry of it is found to be so by
    its header and does not start in the last 12 bytes. -/
theorem swapDirEntries_eq (b : Buf) (stop : Nat) (n p) (hp : p ≤ stop) (hn : stop - p ≤ n) :
    swapDirEntries b stop n p = (decide ((soundWalk b stop p).2 + 12 < stop) && headerBad b
      (soundWalk b stop p).2) := by
  induction n generalizing p with
  | zero =>
    have hw : soundWalk b stop p = ([], p) := walk_stop (by omega)
    rw [hw, decide_eq_false (by omega)]
    rfl
  | succ n ih =>
    rw [swapDirEntries]
    split
    · next hlt =>
      by_cases hsound : soundAt b stop p = true
      · obtain ⟨h1, h2, h3, h4⟩ := soundAt_iff.mp hsound
        have hc : (decide (recLen b p < 12) || recLen b p % 4 != 0) = false := by
          simp [h3]
          omega
        have hn4 : decide (recLen b p < nameLen b p + 12) = false := decide_eq_false (by omega)
        simp only [hc, Bool.false_eq_true, if_false, hn4, Bool.false_or]
        rw [ih _ h1 (by omega), soundWalk_step (by omega) hsound]
      · have hw : soundWalk b stop p = ([], p) := walk_stop fun h => hsound h.2
        rw [hw, decide_eq_true hlt]
        by_cases hc : (decide (recLen b p < 12) || recLen b p % 4 != 0) = true
        · simp [hc, headerBad]
        · have hc : (decide (recLen b p < 12) || recLen b p % 4 != 0) = false := by simpa using hc
          simp only [hc, Bool.false_eq_true, if_false, Bool.false_or, headerBad]
          by_cases hn4 : recLen b p < nameLen b p + 12
          · simp [hn4]
          · -- the header is in order, so the entry is too long and nothing follows it
            have hlong : stop < p + recLen b p := by
              by_contra hle
              simp only [Bool.or_eq_false_iff, decide_eq_false_iff_not, bne_eq_false_iff_eq] at hc
              exact hsound (soundAt_iff.mpr ⟨by omega, by omega, hc.2, by omega⟩)
            have hrest : swapDirEntries b stop n (p + recLen b p) = false := by
              cases n with
              | zero => rfl
              | succ n => rw [swapDirEntries, if_neg (by omega)]
            simp [hn4, hrest]
    · have hle : p ≤ (soundWalk b stop p).2 := by
        by_cases hs : p < stop ∧ soundAt b stop p = true
        · obtain ⟨h1, h2, -⟩ := soundAt_iff.mp hs.2
          have hend : soundWalk b stop (p + recLen b p) = ([], p + recLen b p) :=
            walk_stop (by omega)
          rw [soundWalk_step hs.1 hs.2, hend]
          omega
        · rw [show soundWalk b stop p = ([], p) from walk_stop hs]
      rw [decide_eq_false (by omega)]
      rfl

variable (fs env di)

/-- Where the entries of a block end: at its trailer or at its end. -/
def areaStop : Nat :=
  if dirHasTrailer env di then dirTrailerBlkOff fs else fs.fsBlocksize

/-- The block can be read, and its trailer, if it has one, is in order. -/
structure BlockReads (blkno : Nat) (b : Buf) : Prop where
  read : env.read blkno = .ok b
  ecc : dirHasTrailer env di = true → env.ecc blkno = .ok ()
  signature : dirHasTrailer env di = true →
    bytesAt b (dirTrailerBlkOff fs + 16) 7 = dirTrailerSignature
  trailer : dirHasTrailer env di = true → recLen b (dirTrailerBlkOff fs) = dirTrailerSize ∧
    nameLen b (dirTrailerBlkOff fs) = 0

def blockArea (blkno : Nat) (b : Buf) : Area :=
  ⟨blkno, b, 0, areaStop fs env di⟩

/-- The first malformed entry of a block is noticed when the block is read. -/
def Area.caught (a : Area) : Bool :=
  decide (a.walk.2 + 12 < a.stop) && headerBad a.buf a.walk.2

/-- What the code lists of a block, and whether it takes it for corrupt. -/
def codeArea (a : Area) : List DirCall × Bool :=
  if a.caught then ([], true)
  else (callsOn fs env di a.blocknr a.buf (laxWalk fs a.buf a.start).1,
    decide ((laxWalk fs a.buf a.start).2 < fs.fsBlocksize))

variable {fs env di}

theorem readDirBlock_eq (h : BlockReads fs env di blkno b) : readDirBlock fs env di blkno =
      if (blockArea fs env di blkno b).caught then .error .dirCorrupted else .ok b := by
  have hswap : swapDirEntries b (areaStop fs env di) (areaStop fs env di) 0 =
      (blockArea fs env di blkno b).caught :=
    swapDirEntries_eq b _ _ 0 (Nat.zero_le _) (le_refl _)
  simp only [readDirBlock, h.read]
  by_cases ht : dirHasTrailer env di = true
  · have hstop : areaStop fs env di = dirTrailerBlkOff fs := if_pos ht
    rw [hstop] at hswap
    simp only [if_pos ht, checkDirTrailer, h.ecc ht, if_pos (h.signature ht), swapDirEntriesToCpu,
      hswap]
  · have hstop : areaStop fs env di = fs.fsBlocksize := if_neg ht
    rw [hstop] at hswap
    simp only [if_neg ht, swapDirEntriesToCpu, hswap]

/-- What a block leaves in the context. -/
def contextOf (corrupt : Bool) (p : κ) : DirContext κ :=
  ⟨if corrupt then some .dirCorrupted else none, p⟩

theorem processDirBlock_quiet {c : BlockCall} (h : BlockReads fs env di c.blkno b)
    (note : DirCall → κ → κ) (ctx : DirContext κ) :
    processDirBlock fs env di .none (xlateFunc (quiet note)) c ctx =
      ((codeArea fs env di (blockArea fs env di c.blkno b)).2,
        contextOf (codeArea fs env di (blockArea fs env di c.blkno b)).2
          (tell note ctx.privData (codeArea fs env di (blockArea fs env di c.blkno b)).1)) := by
  rw [processDirBlock, readDirBlock_eq h, codeArea]
  by_cases hc : (blockArea fs env di c.blkno b).caught = true
  · rw [if_pos hc, if_pos hc]
    rfl
  · rw [if_neg hc, if_neg hc]
    simp only [processDirEntry_quiet note c.blkno b _ 0 _ 0 _ (Nat.sub_le _ _)]
    by_cases hend : (laxWalk fs b 0).2 < fs.fsBlocksize
    · simp [hend, blockArea, contextOf]
    · simp [hend, blockArea, contextOf]

/-- The areas of the blocks that `cs` calls on. -/
def blockAreas (fs : Filesys) (env : DirEnv) (di : Dinode) (cs : List BlockCall) : List Area :=
  cs.map fun c => blockArea fs env di c.blkno ((env.read c.blkno).toOption.getD fun _ => 0)

theorem processDirBlock_fold (note : DirCall → κ → κ) : ∀ cs p,
    (∀ c ∈ cs, ∃ b, BlockReads fs env di c.blkno b) →
    foldStop (fun ctx c => processDirBlock fs env di .none (xlateFunc (quiet note)) c ctx)
        (contextOf false p) cs = ((outcome (codeArea fs env di) (blockAreas fs env di cs)).2,
        contextOf (outcome (codeArea fs env di) (blockAreas fs env di cs)).2
          (tell note p (outcome (codeArea fs env di) (blockAreas fs env di cs)).1))
  | [], _, _ => rfl
  | c :: cs, p, h => by
    obtain ⟨b, hb⟩ := h c (by simp)
    have hbuf : (env.read c.blkno).toOption.getD (fun _ => 0) = b := by rw [hb.read]; rfl
    have hlook := processDirBlock_quiet hb note (contextOf false p)
    rw [blockAreas, map_cons, hbuf, outcome]
    generalize codeArea fs env di (blockArea fs env di c.blkno b) = code at hlook ⊢
    by_cases hbad : code.2 = true
    · rw [hbad] at hlook
      rw [if_pos hbad, foldStop_cons_stop hlook]
      rfl
    · have hbad : code.2 = false := by simpa using hbad
      rw [hbad] at hlook
      rw [if_neg (by simp [hbad]), foldStop_cons_go hlook,
        processDirBlock_fold note cs _ fun c' hc' => h c' (by simp [hc']), tell_append]
      rfl

/-! ### Comparing what is listed with what should be -/

/-- The area ends where the entries of the directory may end. -/
structure Area.Fits (fs : Filesys) (env : DirEnv) (di : Dinode) (a : Area) : Prop where
  le : a.start ≤ a.stop
  stop_le : a.stop ≤ fs.fsBlocksize
  trailer : dirHasTrailer env di = true → a.stop = dirTrailerBlkOff fs

/-- What the code lists from the end of the entries on: behind an area in order, and from
    the malformed entry on in another one. -/
def Area.behind (fs : Filesys) (env : DirEnv) (di : Dinode) (a : Area) : List DirCall :=
  callsOn fs env di a.blocknr a.buf (laxWalk fs a.buf a.walk.2).1

/-- Walking on from there, the code meets a bad entry. -/
def Area.badBehind (fs : Filesys) (a : Area) : Bool :=
  decide ((laxWalk fs a.buf a.walk.2).2 < fs.fsBlocksize)

theorem Area.Fits.callsOn_walk {a : Area} (h : a.Fits fs env di) :
    callsOn fs env di a.blocknr a.buf a.walk.1 = a.live := by
  have hlive : ∀ x ∈ a.walk.1, (!entrySkipped fs env di .none a.buf x) = (inode a.buf x != 0) := by
    intro x hx
    have hlt : x < a.stop := (walk_mem_lt (soundAt_pos a.buf a.stop) a.start x hx).2.1
    have hskip : skipDirTrailer fs env di x = false := by
      cases ht : dirHasTrailer env di with
      | false => simp [skipDirTrailer, ht]
      | true =>
        have := h.trailer ht
        simp only [skipDirTrailer, ht, Bool.true_and, beq_eq_false_iff_ne]
        omega
    by_cases h0 : inode a.buf x = 0 <;> simp [entrySkipped, hskip, DirentFlags.none, h0]
  rw [callsOn, Area.live, filter_congr hlive]

theorem Area.Fits.lax {a : Area} (h : a.Fits fs env di) :
    callsOn fs env di a.blocknr a.buf (laxWalk fs a.buf a.start).1 = a.live ++ a.behind fs env di ∧
      decide ((laxWalk fs a.buf a.start).2 < fs.fsBlocksize) = a.badBehind fs := by
  have hlax : laxWalk fs a.buf a.start =
      (a.walk.1 ++ (laxWalk fs a.buf a.walk.2).1, (laxWalk fs a.buf a.walk.2).2) :=
    laxWalk_eq h.stop_le a.start
  rw [hlax, ← h.callsOn_walk]
  simp [callsOn, Area.behind, Area.badBehind]

theorem Area.Fits.walk_of_ok {a : Area} (h : a.Fits fs env di) (hm : a.malformed = false) :
    a.walk.2 = a.stop := by
  have hle : a.walk.2 ≤ a.stop := soundWalk_le h.le
  simp only [Area.malformed, decide_eq_false_iff_not] at hm
  omega

theorem blockArea_fits (fs : Filesys) (env : DirEnv) (di : Dinode) (blkno : Nat) (b : Buf) :
    (blockArea fs env di blkno b).Fits fs env di := by
  refine ⟨Nat.zero_le _, ?_, fun ht => if_pos ht⟩
  show areaStop fs env di ≤ _
  unfold areaStop dirTrailerBlkOff
  split <;> omega

theorem codeArea_ok (h : BlockReads fs env di blkno b)
    (hm : (blockArea fs env di blkno b).malformed = false) :
    codeArea fs env di (blockArea fs env di blkno b) =
      ((blockArea fs env di blkno b).live, false) := by
  have hfits := blockArea_fits fs env di blkno b
  have hend := hfits.walk_of_ok hm
  obtain ⟨hcalls, hbad⟩ := hfits.lax
  have hcaught : (blockArea fs env di blkno b).caught = false := by
    rw [Area.caught, decide_eq_false (by omega), Bool.false_and]
  rw [codeArea, hcaught, hcalls, hbad, Area.behind, Area.badBehind, hend]
  -- behind the entries there is nothing, or the trailer
  cases ht : dirHasTrailer env di with
  | false =>
    have hlax : laxWalk fs b (areaStop fs env di) = ([], areaStop fs env di) :=
      walk_stop (by simp [areaStop, ht])
    have hlt : ¬ areaStop fs env di < fs.fsBlocksize := by simp [areaStop, ht]
    simp [blockArea, hlax, callsOn, hlt]
  | true =>
    obtain ⟨hlen, hname⟩ := h.trailer ht
    have hge := fs.fsBlocksize_ge
    have hoff : areaStop fs env di = dirTrailerBlkOff fs := if_pos ht
    have hsum : dirTrailerBlkOff fs + dirTrailerSize = fs.fsBlocksize := by
      unfold dirTrailerBlkOff dirTrailerSize
      omega
    have hpass : entryPasses fs b (dirTrailerBlkOff fs) = true :=
      entryPasses_iff.mpr (by
        rw [hlen, hname, hsum]
        exact ⟨le_refl _, by decide, by decide, by decide⟩)
    have hlax : laxWalk fs b (dirTrailerBlkOff fs) = ([dirTrailerBlkOff fs], fs.fsBlocksize) := by
      rw [laxWalk, walk_step (entryPasses_pos fs b) (by unfold dirTrailerSize at hsum; omega) hpass,
        hlen, hsum, walk_stop (by omega)]
    have hskip : entrySkipped fs env di .none b (dirTrailerBlkOff fs) = true := by
      simp [entrySkipped, skipDirTrailer, ht, DirentFlags.none]
    simp [blockArea, hoff, hlax, callsOn, hskip]

/-- In the blocks `as` the code meets a bad entry before a live one. -/
def BadFirst (fs : Filesys) (env : DirEnv) (di : Dinode) : List Area → Prop
  | [] => False
  | a :: as => (codeArea fs env di a).1 = [] ∧
      ((codeArea fs env di a).2 = true ∨ BadFirst fs env di as)

/-- The blocks are listed as they should be: if one of them is malformed, then the first
    such block either is noticed to be so when it is read, and has no live entry before the
    malformed one; or from that entry on the code meets a bad entry before a live one. -/
def BlocksListed (fs : Filesys) (env : DirEnv) (di : Dinode) : List Area → Prop
  | [] => True
  | a :: as =>
    if a.malformed = false then BlocksListed fs env di as
    else if a.caught = true then a.live = []
    else a.behind fs env di = [] ∧ (a.badBehind fs = true ∨ BadFirst fs env di as)

theorem outcome_eq_badFirst (fs : Filesys) (env : DirEnv) (di : Dinode) : ∀ as : List Area,
    outcome (codeArea fs env di) as = ([], true) ↔ BadFirst fs env di as
  | [] => by simp [outcome, BadFirst]
  | a :: as => by
    rw [outcome, BadFirst, ← outcome_eq_badFirst fs env di as]
    by_cases h : (codeArea fs env di a).2 = true
    · simp [h]
    · have h : (codeArea fs env di a).2 = false := by simpa using h
      rw [h, if_neg Bool.false_ne_true, Prod.mk.injEq, append_eq_nil_iff]
      constructor
      · rintro ⟨⟨h1, h2⟩, h3⟩
        exact ⟨h1, .inr (Prod.ext h2 h3)⟩
      · rintro ⟨h1, h2 | h2⟩
        · cases h2
        · exact ⟨⟨h1, by rw [h2]⟩, by rw [h2]⟩

theorem outcome_eq_expected : ∀ cs : List BlockCall,
    (∀ c ∈ cs, ∃ b, BlockReads fs env di c.blkno b) →
    (outcome (codeArea fs env di) (blockAreas fs env di cs) = expected (blockAreas fs env di cs) ↔
      BlocksListed fs env di (blockAreas fs env di cs))
  | [], _ => by simp [blockAreas, outcome, expected, BlocksListed]
  | c :: cs, h => by
    obtain ⟨b, hb⟩ := h c (by simp)
    have hbuf : (env.read c.blkno).toOption.getD (fun _ => 0) = b := by rw [hb.read]; rfl
    have ih := outcome_eq_expected cs fun c' hc' => h c' (by simp [hc'])
    have hcons : blockAreas fs env di (c :: cs) =
        blockArea fs env di c.blkno b :: blockAreas fs env di cs := by
      rw [blockAreas, map_cons, hbuf]
      rfl
    have hok := codeArea_ok hb
    obtain ⟨hcalls, hbad⟩ := (blockArea_fits fs env di c.blkno b).lax
    rw [hcons, BlocksListed, expected, outcome, outcome]
    generalize blockArea fs env di c.blkno b = a at hok hcalls hbad ⊢
    by_cases hm : a.malformed = false
    · rw [hok hm, ← ih]
      simp only [hm, Bool.false_eq_true, if_false, Prod.mk.injEq, append_cancel_left_eq]
      exact Prod.ext_iff.symm
    · have hm' : a.malformed = true := by simpa using hm
      simp only [hm', if_true]
      by_cases hc : a.caught = true
      · have hcode : codeArea fs env di a = ([], true) := if_pos hc
        rw [hcode, if_pos hc, if_pos rfl, Prod.mk.injEq]
        simp only [and_true]
        exact eq_comm
      · have hcode : codeArea fs env di a = (a.live ++ a.behind fs env di, a.badBehind fs) := by
          rw [codeArea, if_neg hc, hcalls, hbad]
        rw [hcode, if_neg hc, ← outcome_eq_badFirst]
        by_cases hbb : a.badBehind fs = true
        · simp [hbb]
        · -- the code goes on to the next block
          simp only [hbb, Bool.false_eq_true, if_false, false_or, Prod.mk.injEq, append_assoc,
            append_right_eq_self, append_eq_nil_iff]
          constructor
          · rintro ⟨⟨h1, h2⟩, h3⟩
            exact ⟨h1, Prod.ext h2 h3⟩
          · rintro ⟨h1, h2⟩
            exact ⟨⟨h1, by rw [h2]⟩, by rw [h2]⟩

/-! ### The whole directory -/

def inlineArea (env : DirEnv) (di : Dinode) : Area :=
  ⟨di.iBlkno, env.inodeBuf, idDataOffset, idDataOffset + di.iSize⟩

/-- The areas of the directory whose inode the device holds. -/
def dirAreas (fs : Filesys) (env : DirEnv) (s : St) : List Area :=
  if hasFlag s.dev.inode.iDynFeatures inlineDataFl then [inlineArea env s.dev.inode]
  else blockAreas fs env s.dev.inode
    (fileCalls fs false s.dev.inode.iSize (diskRecs s.dev.ebs s.dev.inode.iList))

/-- A directory that can be read: its data lie in the inode block, or its extent tree is well
    formed and its blocks can be read. Nothing is said about the entries. -/
structure DirOk (fs : Filesys) (env : DirEnv) (s : St) : Prop where
  range : outOfRange fs s.dev.inode.iBlkno = false
  dir : isDirMode s.dev.inode.iMode = true
  inline : hasFlag s.dev.inode.iDynFeatures inlineDataFl = true →
    env.supportInlineData = true ∧ idDataOffset + s.dev.inode.iSize ≤ fs.fsBlocksize
  walkable : hasFlag s.dev.inode.iDynFeatures inlineDataFl = false → Walkable s.dev.inode
  tree : hasFlag s.dev.inode.iDynFeatures inlineDataFl = false → WfTree fs s.dev.ebs s.dev.inode
  blocks : hasFlag s.dev.inode.iDynFeatures inlineDataFl = false →
    ∀ c ∈ fileCalls fs false s.dev.inode.iSize (diskRecs s.dev.ebs s.dev.inode.iList),
      ∃ b, BlockReads fs env s.dev.inode c.blkno b

/-- With flags 0 and a callback that returns 0, the iteration makes the calls `cs` and
    returns `r`. -/
def Makes (fs : Filesys) (env : DirEnv) (s : St) (cs : List DirCall) (r : Except Errcode Unit) :
    Prop :=
  ∀ (κ : Type) (note : DirCall → κ → κ) (p : κ),
    dirIterate fs env .none (quiet note) p s = some (.ok (r, tell note p cs), s)

theorem Makes.unique {as bs : List DirCall} {r r' : Except Errcode Unit}
    (ha : Makes fs env s as r) (hb : Makes fs env s bs r') : as = bs ∧ r = r' := by
  have hfold : ∀ cs log, tell (fun c log => log ++ [c]) log cs = log ++ cs := by
    intro cs
    induction cs with
    | nil => simp [tell]
    | cons c cs ih =>
      intro log
      rw [tell, foldl_cons, ← tell, ih]
      simp
  have h := (ha _ (fun c log => log ++ [c]) []).symm.trans (hb _ (fun c log => log ++ [c]) [])
  simp only [hfold, nil_append, Option.some.injEq, Prod.mk.injEq, Except.ok.injEq] at h
  exact ⟨h.1.2, h.1.1⟩

theorem checkDirectory_ok (h : DirOk fs env s) :
    checkDirectory fs s.dev.inode s = some (.ok (), s) := by
  simp [checkDirectory, h.range, h.dir]

theorem contextOf_result (corrupt : Bool) (p : κ) :
    (contextOf corrupt p).result = resultOf corrupt := by
  cases corrupt <;> rfl

theorem dirIterate_blocks (h : DirOk fs env s)
    (hinl : hasFlag s.dev.inode.iDynFeatures inlineDataFl = false) :
    Makes fs env s (outcome (codeArea fs env s.dev.inode) (dirAreas fs env s)).1
      (resultOf (outcome (codeArea fs env s.dev.inode) (dirAreas fs env s)).2) := by
  intro κ note p
  obtain ⟨ks, hread, hwf⟩ := h.tree hinl
  have hrecs : diskRecs s.dev.ebs s.dev.inode.iList =
      treeRecs s.dev.inode.iList.lTreeDepth s.dev.inode.iList ks := by rw [diskRecs, hread]
  have hlook : BlockLooks (fun c ctx => pure (stopFlags (processDirBlock fs env s.dev.inode .none
        (xlateFunc (quiet note)) c ctx).1,
      (processDirBlock fs env s.dev.inode .none (xlateFunc (quiet note)) c ctx).2))
      (processDirBlock fs env s.dev.inode .none (xlateFunc (quiet note))) s := fun _ _ => rfl
  obtain ⟨stop, ctx, hfold, hrun, -⟩ := blockIterateInode_looks false hlook (h.walkable hinl)
    (hwf.iterable hread) (contextOf false p)
  have hcode := processDirBlock_fold note _ p (h.blocks hinl)
  rw [hrecs, hfold] at hcode
  have hareas : dirAreas fs env s = blockAreas fs env s.dev.inode (fileCalls fs false
      s.dev.inode.iSize (treeRecs s.dev.inode.iList.lTreeDepth s.dev.inode.iList ks)) := by
    rw [dirAreas, hinl, if_neg Bool.false_ne_true, hrecs]
  rw [hareas]
  obtain ⟨rfl, rfl⟩ := Prod.mk.inj hcode
  unfold dirIterate dirIterate2
  rw [bind_ok (get_run s), bind_ok (checkDirectory_ok h)]
  simp only [hinl, Bool.and_false, Bool.false_eq_true, if_false]
  have hstart : ⟨none, p⟩ = contextOf false p := rfl
  rw [hstart, bind_ok (hrun (.inr hwf.lastLeafMapped))]
  simp only [contextOf_result]
  rfl

theorem dirIterate_inline (h : DirOk fs env s)
    (hinl : hasFlag s.dev.inode.iDynFeatures inlineDataFl = true) : Makes fs env s
      ((inlineArea env s.dev.inode).live ++ (inlineArea env s.dev.inode).behind fs env s.dev.inode)
      (if (inlineArea env s.dev.inode).badBehind fs then .error .blockAbort else .ok ()) := by
  intro κ note p
  obtain ⟨hsup, hsize⟩ := h.inline hinl
  have hfits : (inlineArea env s.dev.inode).Fits fs env s.dev.inode := by
    refine ⟨Nat.le_add_right _ _, hsize, fun ht => ?_⟩
    simp [dirHasTrailer, hsup, hinl] at ht
  obtain ⟨hcalls, hbad⟩ := hfits.lax
  rw [← hcalls, ← hbad]
  unfold dirIterate dirIterate2
  rw [bind_ok (get_run s), bind_ok (checkDirectory_ok h)]
  simp only [hsup, hinl, Bool.and_self, if_true, inlineDirIterate]
  rw [processDirEntry_quiet note _ _ _ _ _ _ _ (Nat.sub_le _ _)]
  by_cases hend : (laxWalk fs env.inodeBuf idDataOffset).2 < fs.fsBlocksize
  · simp [hend, inlineArea]
  · simp [hend, inlineArea, DirContext.result]

/-- The calls are on the live entries in front of the first malformed one, and
    `OCFS2_ET_DIR_CORRUPTED` is returned if there is one. -/
def Lists (fs : Filesys) (env : DirEnv) (s : St) : Prop :=
  Makes fs env s (expected (dirAreas fs env s)).1 (resultOf (expected (dirAreas fs env s)).2)

/-- An inline directory is listed as it should be: it is in order, and what lies behind its
    data up to the end of the block reads as unused entries. -/
def InlineListed (fs : Filesys) (env : DirEnv) (di : Dinode) : Prop :=
  (inlineArea env di).malformed = false ∧ (inlineArea env di).behind fs env di = [] ∧
    (inlineArea env di).badBehind fs = false

theorem resultOf_inj {a b : Bool} (h : resultOf a = resultOf b) : a = b := by
  cases a <;> cases b <;> first | rfl | cases h

/-- **When a directory is listed as it should be.** -/
theorem dirIterate_lists_iff (h : DirOk fs env s) : Lists fs env s ↔
    if hasFlag s.dev.inode.iDynFeatures inlineDataFl then InlineListed fs env s.dev.inode
    else BlocksListed fs env s.dev.inode (dirAreas fs env s) := by
  by_cases hinl : hasFlag s.dev.inode.iDynFeatures inlineDataFl = true
  · have hmakes := dirIterate_inline h hinl
    have hexp : expected (dirAreas fs env s) =
        ((inlineArea env s.dev.inode).live, (inlineArea env s.dev.inode).malformed) := by
      rw [dirAreas, if_pos hinl]
      cases hm : (inlineArea env s.dev.inode).malformed <;> simp [expected, outcome, hm]
    rw [if_pos hinl, Lists, hexp, InlineListed]
    generalize inlineArea env s.dev.inode = a at hmakes ⊢
    constructor
    · intro hl
      obtain ⟨h1, h2⟩ := hmakes.unique hl
      cases hb : a.badBehind fs <;> cases hm : a.malformed <;> rw [hb, hm] at h2 <;> cases h2
      exact ⟨rfl, by simpa using h1, rfl⟩
    · rintro ⟨hm, hbehind, hbad⟩
      rw [hbehind, List.append_nil, hbad] at hmakes
      simpa only [hm, resultOf, Bool.false_eq_true, if_false] using hmakes
  · have hinl : hasFlag s.dev.inode.iDynFeatures inlineDataFl = false := by simpa using hinl
    have hmakes := dirIterate_blocks h hinl
    have hareas : dirAreas fs env s = blockAreas fs env s.dev.inode (fileCalls fs false
        s.dev.inode.iSize (diskRecs s.dev.ebs s.dev.inode.iList)) := by
      rw [dirAreas, hinl, if_neg Bool.false_ne_true]
    rw [if_neg (by simp [hinl]), hareas, ← outcome_eq_expected _ (h.blocks hinl), ← hareas]
    constructor
    · intro hl
      obtain ⟨h1, h2⟩ := hmakes.unique hl
      exact Prod.ext h1 (resultOf_inj h2)
    · intro heq
      rw [heq] at hmakes
      exact hmakes

def putEntry (b : Buf) (a ino len : Nat) (name : List UInt8) : Buf :=
  writeBytes (setNameLen (setRecLen (setInode b a ino) a len) a name.length) (a + 12) name

/-- The inode block of a directory with two entries in `size` bytes, and an extended
    attribute header with one entry behind them. -/
def dotsBuf (size : Nat) : Buf :=
  setInode (putEntry (putEntry (fun _ => 0) idDataOffset 20 16 [46])
    (idDataOffset + 16) 19 (size - 16) [46, 46]) (idDataOffset + size) 1

def dotsEnv (size : Nat) : DirEnv :=
  ⟨true, false, false, dotsBuf size, fun _ => .error .io, fun _ => .ok ()⟩

def dotsSt (size : Nat) : St :=
  smallSt [] { smallInode 0 ⟨0, 0, []⟩ with
    iMode := 16384, iDynFeatures := inlineDataFl, iSize := size } []

theorem dots_ok {size : Nat} (h : size ≤ 312) : DirOk smallFs (dotsEnv size) (dotsSt size) := by
  have hinl : hasFlag (dotsSt size).dev.inode.iDynFeatures inlineDataFl ≠ false :=
    show hasFlag inlineDataFl inlineDataFl ≠ false by decide
  exact ⟨show outOfRange smallFs 5 = false by decide, show isDirMode 16384 = true by decide,
    fun _ => ⟨rfl, Nat.add_le_add_left h 200⟩, fun hn => absurd hn hinl, fun hn => absurd hn hinl,
    fun hn => absurd hn hinl⟩

/-- An inline directory that fills the inode block. -/
theorem dirIterate_lists_dots : Lists smallFs (dotsEnv 312) (dotsSt 312) :=
  (dirIterate_lists_iff (dots_ok (le_refl _))).mpr (by
    exact ⟨by decide +kernel, by decide +kernel, by decide +kernel⟩)

/-- An inline directory in order with extended attributes behind it: both entries are
    listed, and then `OCFS2_BLOCK_ABORT` is returned. -/
theorem dirIterate_inline_xattr : DirOk smallFs (dotsEnv 56) (dotsSt 56) ∧
    expected (dirAreas smallFs (dotsEnv 56) (dotsSt 56)) =
      ([⟨⟨20, 16, 1, 0, [46]⟩, 5, 200⟩, ⟨⟨19, 40, 2, 0, [46, 46]⟩, 5, 216⟩], false) ∧
    Makes smallFs (dotsEnv 56) (dotsSt 56)
      [⟨⟨20, 16, 1, 0, [46]⟩, 5, 200⟩, ⟨⟨19, 40, 2, 0, [46, 46]⟩, 5, 216⟩] (.error .blockAbort) ∧
    ¬ Lists smallFs (dotsEnv 56) (dotsSt 56) := by
  have hok := dots_ok (show 56 ≤ 312 by decide)
  have hmakes : Makes smallFs (dotsEnv 56) (dotsSt 56)
      [⟨⟨20, 16, 1, 0, [46]⟩, 5, 200⟩, ⟨⟨19, 40, 2, 0, [46, 46]⟩, 5, 216⟩]
        (.error .blockAbort) := by
    have h := dirIterate_inline hok (by decide)
    rwa [show (inlineArea (dotsEnv 56) (dotsSt 56).dev.inode).live ++
          (inlineArea (dotsEnv 56) (dotsSt 56).dev.inode).behind smallFs (dotsEnv 56)
            (dotsSt 56).dev.inode =
        [⟨⟨20, 16, 1, 0, [46]⟩, 5, 200⟩, ⟨⟨19, 40, 2, 0, [46, 46]⟩, 5, 216⟩] by
        decide +kernel] at h
  refine ⟨hok, by decide +kernel, hmakes, fun hl => ?_⟩
  cases (hmakes.unique hl).2

end Ocfs2Tools.Dir
