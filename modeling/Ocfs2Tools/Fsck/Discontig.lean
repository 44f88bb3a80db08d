import Ocfs2Tools.Device

/-!
# Groups of several pieces

`check_discontig_bg` of `pass0.c` adds up the lengths of a group's records. Where the list ends it
tells from the clusters counted so far, and of a record that claims more than a group has it puts
the length right. It does not look at `e_cpos`, and a record without clusters passes if it has a
block.
-/

namespace Ocfs2Tools.Pass0

open List ExtentRec

/-- `bg_list`. The array has `ocfs2_extent_recs_per_gd` records, whatever `l_count` says. -/
structure BgList where
  lTreeDepth : Nat
  lCount : Nat
  lNextFreeRec : Nat
  lRecs : List ExtentRec
deriving DecidableEq, Repr

/-- The first or the last block of the record is not in the volume. -/
def claimsOutside (fs : Filesys) (r : ExtentRec) : Bool :=
  outOfRange fs r.eBlkno ||
    outOfRange fs ((r.eBlkno + clustersToBlocks fs r.eLeafClusters - 1) % 2 ^ 64)

/-- The loop over the records from number `i` on. It returns the number it ends at, the clusters
    it counted and the record to put right; `none` is the question whether to drop the group. -/
def countRecs (fs : Filesys) (cpg : Nat) :
    List ExtentRec → Nat → Nat → Option Nat → Option (Nat × Nat × Option Nat)
  | [], i, total, fixPos => some (i, total, fixPos)
  | r :: recs, i, total, fixPos =>
    if r.eBlkno = 0 ∧ r.eLeafClusters = 0 then some (i, total, fixPos)
    else if claimsOutside fs r then none
    else if cpg < r.eLeafClusters then
      if fixPos.isSome then none else countRecs fs cpg recs (i + 1) total (some i)
    else if cpg < total + r.eLeafClusters then
      if total = cpg ∧ fixPos = none then some (i, total, fixPos) else none
    else countRecs fs cpg recs (i + 1) (total + r.eLeafClusters) fixPos

def BgList.claimed (bg : BgList) : List ExtentRec :=
  bg.lRecs.take (min bg.lNextFreeRec (min bg.lCount bg.lRecs.length))

/-- `check_discontig_bg` with every question answered yes; `none` drops the group. -/
def checkDiscontigBg (fs : Filesys) (cpg : Nat) (bg : BgList) : Option BgList :=
  match countRecs fs cpg bg.claimed 0 0 none with
  | none => none
  | some (i, total, none) =>
    if total < cpg then none else some ⟨0, min bg.lCount bg.lRecs.length, i, bg.lRecs⟩
  | some (i, total, some fixPos) =>
    if total = cpg then none
    else some ⟨0, min bg.lCount bg.lRecs.length, i,
      bg.lRecs.modify fixPos ({ · with eLeafClusters := cpg - total })⟩

/-- The records in use divide the `cpg` clusters of the group. -/
structure Divides (fs : Filesys) (cpg : Nat) (bg : BgList) : Prop where
  le_count : bg.lNextFreeRec ≤ bg.lCount
  tiled : Tiled eCpos eLeafClusters 0 (bg.lRecs.take bg.lNextFreeRec) cpg
  sum : ((bg.lRecs.take bg.lNextFreeRec).map eLeafClusters).sum = cpg
  inside : ∀ r ∈ bg.lRecs.take bg.lNextFreeRec, superBlockBlkno ≤ r.eBlkno ∧
    r.eBlkno + clustersToBlocks fs r.eLeafClusters ≤ fs.fsBlocks

/-! ### The records that are filled in -/

def counted (cpg : Nat) (r : ExtentRec) : Nat :=
    if cpg < r.eLeafClusters then 0 else r.eLeafClusters

/-- The records before one that is not filled in, or that comes when `cpg` clusters are there. -/
def filledIn (cpg : Nat) : List ExtentRec → Nat → List ExtentRec
  | [], _ => []
  | r :: recs, total =>
    if r.eBlkno = 0 ∧ r.eLeafClusters = 0 ∨
        total = cpg ∧ 0 < r.eLeafClusters ∧ r.eLeafClusters ≤ cpg then []
    else r :: filledIn cpg recs (total + counted cpg r)

/-- A record that claims too much gets `missing` clusters. -/
def settle (cpg missing : Nat) (r : ExtentRec) : ExtentRec :=
  if cpg < r.eLeafClusters then { r with eLeafClusters := missing } else r

/-- The records with the one put right that claims too much: it has what the others leave. -/
def putRight (cpg : Nat) (recs : List ExtentRec) : List ExtentRec :=
  recs.map (settle cpg (cpg - (recs.map (counted cpg)).sum))

variable {fs : Filesys} {cpg i total : Nat} {fixPos : Option Nat} {r : ExtentRec}
  {recs used : List ExtentRec} {res : Nat × Nat × Option Nat} {bg bg' : BgList}

theorem filledIn_front : ∀ recs total, filledIn cpg recs total <+: recs
  | [], _ => nil_prefix
  | r :: recs, total => by
    rw [filledIn]
    split
    · exact nil_prefix
    · exact (prefix_cons_inj r).mpr (filledIn_front recs _)

/-- The loop went over the records `used`. -/
structure Counted (fs : Filesys) (cpg : Nat) (used : List ExtentRec) (i total : Nat)
    (fixPos : Option Nat) (res : Nat × Nat × Option Nat) : Prop where
  pos : res.1 = i + used.length
  total : res.2.1 = total + (used.map (counted cpg)).sum
  le : res.2.1 ≤ cpg
  inside : ∀ r ∈ used, claimsOutside fs r = false
  fixes : (res.2.2 = fixPos ∧ ∀ r ∈ used, r.eLeafClusters ≤ cpg) ∨
    fixPos = none ∧ ∃ A r B, used = A ++ r :: B ∧ cpg < r.eLeafClusters ∧
      res.2.2 = some (i + A.length) ∧ ∀ x ∈ A ++ B, x.eLeafClusters ≤ cpg

theorem Counted.nil (h : total ≤ cpg) : Counted fs cpg [] i total fixPos (i, total, fixPos) :=
  ⟨rfl, rfl, h, nofun, .inl ⟨rfl, nofun⟩⟩

theorem Counted.cons (hr : claimsOutside fs r = false) (hle : r.eLeafClusters ≤ cpg)
    (h : Counted fs cpg used (i + 1) (total + r.eLeafClusters) fixPos res) :
    Counted fs cpg (r :: used) i total fixPos res := by
  refine ⟨?_, ?_, h.le, forall_mem_cons.mpr ⟨hr, h.inside⟩, ?_⟩
  · rw [h.pos, length_cons, Nat.add_right_comm, Nat.add_assoc]
  · rw [h.total, map_cons, sum_cons, counted, if_neg (Nat.not_lt.mpr hle), Nat.add_assoc]
  · rcases h.fixes with ⟨heq, hall⟩ | ⟨hno, A, x, B, rfl, hx, heq, hall⟩
    · exact .inl ⟨heq, forall_mem_cons.mpr ⟨hle, hall⟩⟩
    · refine .inr ⟨hno, r :: A, x, B, rfl, hx, ?_, forall_mem_cons.mpr ⟨hle, hall⟩⟩
      rw [heq, length_cons, Nat.add_right_comm, Nat.add_assoc]

theorem Counted.cons_large (hr : claimsOutside fs r = false) (hlt : cpg < r.eLeafClusters)
    (h : Counted fs cpg used (i + 1) total (some i) res) :
    Counted fs cpg (r :: used) i total none res := by
  refine ⟨?_, ?_, h.le, forall_mem_cons.mpr ⟨hr, h.inside⟩, ?_⟩
  · rw [h.pos, length_cons, Nat.add_right_comm, Nat.add_assoc]
  · rw [h.total, map_cons, sum_cons, counted, if_pos hlt, Nat.zero_add]
  · rcases h.fixes with ⟨heq, hall⟩ | ⟨hno, -⟩
    · exact .inr ⟨rfl, [], r, used, rfl, hlt, heq, hall⟩
    · cases hno

theorem countRecs_counted : ∀ recs {i total fixPos},
    countRecs fs cpg recs i total fixPos = some res → total ≤ cpg →
    Counted fs cpg (filledIn cpg recs total) i total fixPos res
  | [], _, _, _, h, hle => by
    cases h
    exact .nil hle
  | r :: recs, i, total, fixPos, h, hle => by
    rw [countRecs] at h
    rw [filledIn]
    split at h
    · next hend =>
      rw [if_pos (.inl hend), ← Option.some.inj h]
      exact .nil hle
    cases hr : claimsOutside fs r with
    | true => rw [hr] at h; cases h
    | false =>
      rw [hr, if_neg (by decide)] at h
      split at h
      · next hlt =>
        rw [if_neg (by omega), counted, if_pos hlt]
        cases fixPos with
        | some p => cases h
        | none => exact .cons_large hr hlt (countRecs_counted recs h hle)
      · next hlt =>
        split at h
        · split at h
          · next heq =>
            rw [if_pos (.inr ⟨heq.1, by omega, by omega⟩), ← Option.some.inj h]
            exact .nil hle
          · cases h
        · next hover =>
          rw [if_neg (by omega), counted, if_neg hlt]
          exact .cons hr (Nat.not_lt.mp hlt) (countRecs_counted recs h (Nat.not_lt.mp hover))

/-! ### What is left of the group -/

theorem map_settle {missing : Nat} (h : ∀ r ∈ recs, r.eLeafClusters ≤ cpg) :
    recs.map (settle cpg missing) = recs :=
  (map_congr_left fun r hr => if_neg (Nat.not_lt.mpr (h r hr))).trans (map_id recs)

theorem sum_counted (h : ∀ r ∈ recs, r.eLeafClusters ≤ cpg) :
    (recs.map (counted cpg)).sum = (recs.map eLeafClusters).sum := by
  congr 1
  exact map_congr_left fun r hr => if_neg (Nat.not_lt.mpr (h r hr))

theorem modify_middle {α : Type} (f : α → α) (a : α) (B : List α) : ∀ A : List α,
    (A ++ a :: B).modify A.length f = A ++ f a :: B
  | [] => rfl
  | x :: A => congrArg (x :: ·) (modify_middle f a B A)

theorem checkDiscontigBg_putRight (h : checkDiscontigBg fs cpg bg = some bg') :
    bg'.lRecs.take bg'.lNextFreeRec = putRight cpg (filledIn cpg bg.claimed 0) ∧
      bg'.lNextFreeRec ≤ bg'.lCount ∧
      ((bg'.lRecs.take bg'.lNextFreeRec).map eLeafClusters).sum = cpg ∧
      ∀ r ∈ filledIn cpg bg.claimed 0, claimsOutside fs r = false := by
  unfold checkDiscontigBg at h
  have hpre := @filledIn_front cpg bg.claimed 0
  have hbound : (filledIn cpg bg.claimed 0).length ≤ min bg.lCount bg.lRecs.length := by
    have hlen : bg.claimed.length ≤ min bg.lCount bg.lRecs.length := by
      rw [BgList.claimed, length_take]
      omega
    exact Nat.le_trans hpre.length_le hlen
  obtain ⟨rest, hrecs⟩ := hpre.trans <| take_prefix _ _
  cases hrun : countRecs fs cpg bg.claimed 0 0 none with
  | none => rw [hrun] at h; cases h
  | some res =>
    obtain ⟨i, total, fixPos⟩ := res
    rw [hrun] at h
    obtain ⟨hpos, htotal, hle, hin, hfix⟩ := countRecs_counted _ hrun (Nat.zero_le cpg)
    generalize filledIn cpg bg.claimed 0 = used at *
    obtain rfl : i = used.length := hpos.trans (Nat.zero_add _)
    obtain rfl : total = (used.map (counted cpg)).sum := htotal.trans (Nat.zero_add _)
    rcases hfix with ⟨hno, hall⟩ | ⟨-, A, r, B, rfl, hlt, hat, hall⟩
    · cases hno
      dsimp only at h hle
      split at h
      · cases h
      · cases h
        rw [← hrecs, take_left, putRight, map_settle hall, ← sum_counted hall]
        exact ⟨rfl, hrecs ▸ hbound, by omega, hin⟩
    · rw [Nat.zero_add] at hat
      cases hat
      dsimp only at h hle
      split at h
      · cases h
      · cases h
        obtain ⟨hA, hB⟩ := forall_mem_append.mp hall
        have hsum : ((A ++ r :: B).map (counted cpg)).sum =
            (A.map eLeafClusters).sum + (B.map eLeafClusters).sum := by
          rw [map_append, sum_append, map_cons, sum_cons, sum_counted hA, sum_counted hB, counted,
            if_pos hlt, Nat.zero_add]
        have hput : putRight cpg (A ++ r :: B) =
            A ++ { r with eLeafClusters := cpg - ((A ++ r :: B).map (counted cpg)).sum } :: B := by
          rw [putRight, map_append, map_cons, map_settle hA, map_settle hB, settle, if_pos hlt]
        have htake : (bg.lRecs.modify A.length ({ · with
            eLeafClusters := cpg - ((A ++ r :: B).map (counted cpg)).sum })).take
            (A ++ r :: B).length = putRight cpg (A ++ r :: B) := by
          rw [← hrecs, append_assoc, cons_append, modify_middle, ← cons_append,
            ← append_assoc, hput,
            take_left' (by simp)]
        rw [htake]
        refine ⟨rfl, hbound, ?_, hin⟩
        rw [hput, map_append, map_cons, sum_append, sum_cons]
        dsimp only
        omega

theorem passes_bounds (hfs : fs.fsBlocks < 2 ^ 63) (hlen : r.eLeafClusters < 65536)
    (h : claimsOutside fs r = false) : superBlockBlkno ≤ r.eBlkno ∧
      r.eBlkno + clustersToBlocks fs r.eLeafClusters ≤ fs.fsBlocks + 1 := by
  simp only [claimsOutside, outOfRange, Bool.or_eq_false_iff, decide_eq_false_iff_not] at h
  have hblocks : clustersToBlocks fs r.eLeafClusters ≤ 65535 * 2048 :=
    Nat.mul_le_mul (Nat.le_of_lt_succ hlen) fs.bpc_le
  omega

theorem settle_shorter (r : ExtentRec) {missing : Nat} (h : missing ≤ cpg) :
    (settle cpg missing r).eBlkno = r.eBlkno ∧
      (settle cpg missing r).eLeafClusters ≤ r.eLeafClusters := by
  unfold settle
  split
  · next hlt => exact ⟨rfl, Nat.le_trans h (Nat.le_of_lt hlt)⟩
  · exact ⟨rfl, Nat.le_refl _⟩

/-- **A group that is not dropped is divided by its records exactly if** the records that are
    filled in have a length each and stand where the ones before them end, and none of them ends
    one block behind the volume. -/
theorem checkDiscontigBg_divides_iff (fs : Filesys) (cpg : Nat) (bg bg' : BgList)
    (hfs : fs.fsBlocks < 2 ^ 63) (hfits : ∀ r ∈ bg.lRecs, r.eLeafClusters < 65536)
    (h : checkDiscontigBg fs cpg bg = some bg') : Divides fs cpg bg' ↔
      Tiled eCpos eLeafClusters 0 (putRight cpg (filledIn cpg bg.claimed 0)) cpg ∧
      ∀ r ∈ putRight cpg (filledIn cpg bg.claimed 0),
        r.eBlkno + clustersToBlocks fs r.eLeafClusters ≠ fs.fsBlocks + 1 := by
  obtain ⟨hused, hcount, hsum, hpass⟩ := checkDiscontigBg_putRight h
  have hbounds : ∀ r ∈ putRight cpg (filledIn cpg bg.claimed 0), superBlockBlkno ≤ r.eBlkno ∧
      r.eBlkno + clustersToBlocks fs r.eLeafClusters ≤ fs.fsBlocks + 1 := by
    intro r hr
    obtain ⟨x, hx, rfl⟩ := mem_map.mp hr
    have hmem := mem_of_mem_take ((@filledIn_front cpg bg.claimed 0).subset hx)
    obtain ⟨h1, h2⟩ := passes_bounds hfs (hfits x hmem) (hpass x hx)
    obtain ⟨h3, h4⟩ := settle_shorter x (Nat.sub_le cpg _)
    rw [h3]
    exact ⟨h1, Nat.le_trans (Nat.add_le_add_left (Nat.mul_le_mul_right _ h4) _) h2⟩
  rw [← hused] at hbounds ⊢
  constructor
  · rintro ⟨-, htiled, -, hin⟩
    exact ⟨htiled, fun r hr heq => by have := (hin r hr).2; omega⟩
  · rintro ⟨htiled, hne⟩
    refine ⟨hcount, htiled, hsum, fun r hr => ?_⟩
    have h1 := hbounds r hr
    have h2 := hne r hr
    omega

def pieceFs : Filesys := .largeBlocks 1000

/-- A record without clusters stays in the list. -/
theorem checkDiscontigBg_keeps_empty :
    let bg : BgList := ⟨0, 4, 3, [⟨0, 2, 0, 0, 10⟩, ⟨9, 0, 0, 0, 20⟩, ⟨2, 2, 0, 0, 30⟩, .zero]⟩
    checkDiscontigBg pieceFs 4 bg = some bg ∧ ¬Divides pieceFs 4 bg :=
  ⟨by decide, fun h => absurd h.tiled (by decide)⟩

/-- The second record claims more than the group has. -/
theorem checkDiscontigBg_divides_repaired :
    Divides pieceFs 4 ⟨0, 3, 2, [⟨0, 2, 0, 0, 10⟩, ⟨2, 2, 0, 0, 20⟩, .zero]⟩ :=
  (checkDiscontigBg_divides_iff pieceFs 4
    ⟨1, 9, 7, [⟨0, 2, 0, 0, 10⟩, ⟨2, 9, 0, 0, 20⟩, .zero]⟩ _ (by decide) (by decide)
      (by decide)).mpr
    (by decide)

end Ocfs2Tools.Pass0
