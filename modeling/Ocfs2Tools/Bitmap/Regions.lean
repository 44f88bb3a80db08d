import Ocfs2Tools.Bitmap.Model
import Ocfs2Tools.ChainAlloc.Range

/-!
# Regions and the search for them

What a list of regions says about a bit, what merging does to it, and what the search in the
tree finds.
-/

namespace Ocfs2Tools.Bitmap

open Bitops List
open ChainAlloc (RTree TailClear)

def Region.bitAt (r : Region) (x : Nat) : Option Bool :=
  if r.brStartBit ≤ x ∧ x < r.stop then
    some (testBit (x - r.brStartBit + r.brBitmapStart) r.brBitmap)
  else none

def bitsOf (l : List Region) (x : Nat) : Option Bool := l.findSome? (·.bitAt x)

/-- A region with a buffer of the right size and nothing behind its last bit. -/
structure Region.Ok (r : Region) : Prop where
  pos : 0 < r.brValidBits
  small : r.brTotalBits + 7 ≤ intMax
  bytes : r.brBitmap.length = (r.brTotalBits + 7) / 8
  tail : TailClear r.brBitmap r.brTotalBits

/-- The regions are in order and do not overlap. -/
def Sorted (l : List Region) : Prop := l.Pairwise fun a b => a.stop ≤ b.brStartBit

variable {r : Region} {l : List Region} {x : Nat}

theorem bitAt_inside (h1 : r.brStartBit ≤ x) (h2 : x < r.stop) :
    r.bitAt x = some (testBit (x - r.brStartBit + r.brBitmapStart) r.brBitmap) := if_pos ⟨h1, h2⟩

theorem bitAt_eq_none : r.bitAt x = none ↔ x < r.brStartBit ∨ r.stop ≤ x := by
  unfold Region.bitAt
  split
  · simp only [reduceCtorEq, false_iff]
    omega
  · simp only [true_iff]
    omega

theorem bitsOf_append (l l' : List Region) (x : Nat) :
    bitsOf (l ++ l') x = (bitsOf l x).or (bitsOf l' x) := findSome?_append

theorem bitsOf_cons (r : Region) (l : List Region) (x : Nat) :
    bitsOf (r :: l) x = (r.bitAt x).or (bitsOf l x) := by
  rw [← singleton_append, bitsOf_append]
  simp [bitsOf]

theorem bitsOf_eq_none : bitsOf l x = none ↔ ∀ r ∈ l, x < r.brStartBit ∨ r.stop ≤ x := by
  simp only [bitsOf, findSome?_eq_none_iff, bitAt_eq_none]

theorem Region.Ok.fits (h : r.Ok) : r.brTotalBits ≤ 8 * r.brBitmap.length := by
  have := h.bytes
  omega

theorem Region.Ok.lt_stop (h : r.Ok) : r.brStartBit < r.stop :=
  Nat.lt_add_of_pos_right h.pos

/-! ### Merging -/

@[simp] theorem testBit_nil (k : Nat) : testBit k [] = false := by
  rw [testBit_eq]
  exact Nat.zero_testBit _

theorem testBit_append (a b : List UInt8) (k : Nat) : testBit k (a ++ b) =
    if k < 8 * a.length then testBit k a else testBit (k - 8 * a.length) b := by
  rw [testBit_eq, testBit_eq, testBit_eq]
  split
  · rw [getD_append _ _ _ _ (by omega)]
  · rw [getD_append_right _ _ _ _ (by omega)]
    rw [show k / 8 - a.length = (k - 8 * a.length) / 8 by omega,
      show k % 8 = (k - 8 * a.length) % 8 by omega]

theorem testBit_cons (b : UInt8) (l : List UInt8) (k : Nat) : testBit k (b :: l) =
    if k < 8 then b.toNat.testBit k else testBit (k - 8) l := by
  rw [← singleton_append, testBit_append, length_singleton]
  split
  · next h => rw [testBit_eq, Nat.div_eq_of_lt h, Nat.mod_eq_of_lt h]; rfl
  · rfl

theorem Region.Ok.behind (h : r.Ok) {k : Nat} (hk : r.brTotalBits ≤ k) :
    testBit k r.brBitmap = false := by
  by_cases hlt : k < 8 * r.brBitmap.length
  · exact h.tail k hk hlt
  · rw [testBit_eq, getD_eq_default _ _ (by omega)]
    exact Nat.zero_testBit _

section Shift

variable {offset : Nat} (hoff : offset < 8)
include hoff

theorem testBit_shiftIn : ∀ bs cur (bits : Int), bits ≤ 8 * bs.length →
    (∀ k : Nat, bits ≤ k → testBit k bs = false) →
    (bits ≤ 0 → ∀ j, offset ≤ j → cur.toNat.testBit j = false) → ∀ k,
    testBit k (shiftIn offset cur bs bits) =
      if k < offset then cur.toNat.testBit k else testBit (k - offset) bs := by
  intro bs
  induction bs with
  | nil =>
    intro cur bits hlen htail hcur k
    rw [shiftIn, testBit_cons]
    split
    · split
      · rfl
      · next hk => rw [hcur (by simpa using hlen) k (not_lt.mp hk),
          htail _ (by simp at hlen; omega)]
    · rw [if_neg (by omega), testBit_nil, testBit_nil]
  | cons b bs ih =>
    intro cur bits hlen htail hcur k
    rw [length_cons] at hlen
    rw [shiftIn]
    split
    · next hbits =>
      have hfirst : ∀ rest, testBit k (UInt8.ofNat ((cur.toNat &&& (2 ^ offset - 1)) |||
          ((b.toNat &&& (2 ^ (8 - offset) - 1)) <<< offset)) :: rest) =
          if k < 8 then (if k < offset then cur.toNat.testBit k else b.toNat.testBit (k - offset))
          else testBit (k - 8) rest := by
        intro rest
        rw [testBit_cons]
        split
        · rw [UInt8.toNat_ofNat', Nat.testBit_mod_two_pow]
          split
          · next h8 hk => simp [h8, hk, not_le.mpr hk]
          · next h8 hk =>
            have h1 : k - offset < 8 - offset := by omega
            simp [h8, hk, h1, not_lt.mp hk]
        · rfl
      split
      · rw [hfirst, testBit_cons b bs]
        split
        · rw [if_pos (show k - offset < 8 by omega)]
        · next h8 =>
          rw [ih _ _ (by omega) (fun j hj => ?_) (fun _ j hj => ?_),
            if_neg (show ¬ k < offset by omega)]
          · split
            · rw [if_pos (by omega), UInt8.toNat_ofNat', Nat.testBit_mod_two_pow,
                Nat.testBit_shiftRight, show 8 - offset + (k - 8) = k - offset by omega]
              simp
              omega
            · rw [if_neg (by omega), show k - 8 - offset = k - offset - 8 by omega]
          · have := htail (j + 8) (by omega)
            rwa [testBit_cons] at this
          · rw [UInt8.toNat_ofNat', Nat.testBit_mod_two_pow, Nat.testBit_shiftRight,
              testBit_ge b (by omega), Bool.and_false]
      · rw [hfirst]
        split
        · next h8 => rw [testBit_cons b bs, if_pos (show k - offset < 8 by omega)]
        · rw [if_neg (by omega), htail (k - offset) (by omega), testBit_nil]
    · next hbits =>
      rw [testBit_cons]
      split
      · split
        · rfl
        · next hk => rw [hcur (by omega) k (not_lt.mp hk), htail _ (by omega)]
      · rw [if_neg (by omega), htail _ (by omega), testBit_nil]

theorem length_shiftIn (bs cur) (bits : Int) (hlen : bits ≤ 8 * bs.length) :
    ((shiftIn offset cur bs bits).length : Int) = max 1 ((offset + bits + 7) / 8) := by
  induction bs generalizing cur bits with
  | nil =>
    simp only [shiftIn, length_cons, length_nil] at *
    omega
  | cons b bs ih =>
    rw [length_cons] at hlen
    rw [shiftIn]
    split
    · split
      · have := ih (UInt8.ofNat (b.toNat >>> (8 - offset))) (bits - 8) (by omega)
        rw [length_cons]
        omega
      · simp only [length_cons, length_nil]
        omega
    · simp only [length_cons, length_nil]
      omega

end Shift

section Merge

variable {agree : Bool} {bTotalBits : Nat} {prev next m : Region}

theorem mergeRegion_eq_some : mergeRegion agree bTotalBits prev next = some m ↔
    (prev.stop = next.brStartBit ∧ agree = true ∧ prev.brBitmapStart = 0 ∧ next.brBitmapStart = 0 ∧
      prev.brTotalBits + next.brTotalBits + 7 ≤ intMax ∧
      prev.brStartBit + (prev.brTotalBits + next.brTotalBits) ≤ bTotalBits) ∧ m = { prev with
      brValidBits := prev.brTotalBits + next.brTotalBits
      brSetBits := prev.brSetBits + next.brSetBits
      brBitmap :=
        if prev.brTotalBits % 8 = 0 then prev.brBitmap ++ next.brBitmap
        else prev.brBitmap.dropLast ++ shiftIn (prev.brTotalBits % 8) (prev.brBitmap.getLastD 0)
          next.brBitmap next.brTotalBits } := by
  unfold mergeRegion
  split
  · next h =>
    simp only [reduceCtorEq, false_iff]
    rintro ⟨⟨h1, h2, h3, h4, h5, h6⟩, -⟩
    simp only [h1, h2, h3, h4, ne_eq, not_true_eq_false, false_or, Bool.true_eq_false] at h
    omega
  · next h =>
    simp only [ne_eq, not_or, not_not, Bool.not_eq_false, not_lt] at h
    rw [Option.some.injEq, eq_comm, and_iff_right h]

theorem testBit_merged (hp : prev.Ok) (hn : next.Ok)
    (h : mergeRegion agree bTotalBits prev next = some m) (k : Nat) : testBit k m.brBitmap =
      if k < prev.brTotalBits then testBit k prev.brBitmap
      else testBit (k - prev.brTotalBits) next.brBitmap := by
  obtain ⟨-, rfl⟩ := mergeRegion_eq_some.mp h
  have hbytes := hp.bytes
  split
  · next h0 =>
    rw [testBit_append, show 8 * prev.brBitmap.length = prev.brTotalBits by omega]
  · next h0 =>
    have hne : prev.brBitmap ≠ [] := fun h => by rw [h, length_nil] at hbytes; omega
    obtain ⟨init, last, hsplit⟩ : ∃ init last, prev.brBitmap = init ++ [last] :=
      ⟨_, _, (dropLast_append_getLast hne).symm⟩
    rw [hsplit, length_append, length_singleton] at hbytes
    rw [hsplit, dropLast_concat, getLastD_concat, testBit_append, testBit_append]
    split
    · rw [if_pos (by omega)]
    · rw [testBit_shiftIn (by omega) next.brBitmap last _ (by exact_mod_cast hn.fits)
        (fun j hj => hn.behind (by exact_mod_cast hj)) (fun h => ?_)]
      · by_cases hk : k < prev.brTotalBits
        · rw [if_pos (by omega), if_pos hk, testBit_cons, if_pos (by omega)]
        · rw [if_neg (by omega), if_neg hk]
          congr 1
          omega
      · have := hn.pos
        unfold Region.brTotalBits at h
        omega

/-- What merging gives. -/
structure Merged (prev next m : Region) : Prop where
  ok : m.Ok
  adjacent : prev.stop = next.brStartBit
  start : m.brStartBit = prev.brStartBit
  stop : m.stop = next.stop
  bits : ∀ x, m.bitAt x = (prev.bitAt x).or (next.bitAt x)
  setBits : m.brSetBits = prev.brSetBits + next.brSetBits

theorem Region.Ok.merged (hp : prev.Ok) (hn : next.Ok)
    (h : mergeRegion agree bTotalBits prev next = some m) : Merged prev next m := by
  have hbit := testBit_merged hp hn h
  obtain ⟨⟨hadj, -, hp0, hn0, hsmall, -⟩, hm⟩ := mergeRegion_eq_some.mp h
  have hpos := hp.pos
  have hlp := hp.bytes
  have hln := hn.bytes
  have hpt : prev.brTotalBits = prev.brValidBits := by rw [Region.brTotalBits, hp0, add_zero]
  have hnt : next.brTotalBits = next.brValidBits := by rw [Region.brTotalBits, hn0, add_zero]
  have hstart : m.brStartBit = prev.brStartBit := by rw [hm]
  have hm0 : m.brBitmapStart = 0 := by rw [hm]; exact hp0
  have hvalid : m.brValidBits = prev.brTotalBits + next.brTotalBits := by rw [hm]
  have htotal : m.brTotalBits = prev.brTotalBits + next.brTotalBits := by
    rw [Region.brTotalBits, hm0, hvalid, add_zero]
  have hstop : m.stop = next.stop := by
    unfold Region.stop at *
    omega
  have hlen : m.brBitmap.length = (m.brTotalBits + 7) / 8 := by
    rw [htotal, hm]
    split
    · rw [length_append]
      omega
    · have := @length_shiftIn (prev.brTotalBits % 8) (Nat.mod_lt _ (by decide))
        next.brBitmap (prev.brBitmap.getLastD 0) next.brTotalBits (by exact_mod_cast hn.fits)
      rw [length_append, length_dropLast]
      omega
  refine ⟨⟨by omega, by omega, hlen, fun k hk _ => ?_⟩, hadj, hstart, hstop, fun x => ?_,
    by rw [hm]⟩
  · rw [hbit, if_neg (by omega)]
    exact hn.behind (by omega)
  · unfold Region.stop at hadj hstop
    by_cases hx : m.brStartBit ≤ x ∧ x < m.stop
    · rw [bitAt_inside hx.1 hx.2, hbit, hm0, hstart]
      by_cases hlt : x < prev.stop
      · rw [bitAt_inside (hstart ▸ hx.1) hlt, hp0, if_pos (by unfold Region.stop at hlt; omega)]
        rfl
      · rw [bitAt_eq_none.mpr (.inr (not_lt.mp hlt))]
        unfold Region.stop at hlt hx
        rw [bitAt_inside (by omega) (by unfold Region.stop; omega), if_neg (by omega)]
        congr 2
        omega
    · unfold Region.stop at hx
      rw [bitAt_eq_none.mpr, bitAt_eq_none.mpr, bitAt_eq_none.mpr, Option.or_none] <;>
        (unfold Region.stop; omega)

end Merge

/-! ### Inserting -/

section Insert

variable {agree : Bool} {bTotalBits : Nat}

/-- Some neighbours of a list were merged. -/
inductive Joined (agree : Bool) (bTotalBits : Nat) : List Region → List Region → Prop
  | refl (l : List Region) : Joined agree bTotalBits l l
  | step {A B l' : List Region} {a b m : Region} :
      mergeRegion agree bTotalBits a b = some m → Joined agree bTotalBits (A ++ m :: B) l' →
      Joined agree bTotalBits (A ++ a :: b :: B) l'

theorem joinNext_joined (A : List Region) (br : Region) (after : List Region) :
    Joined agree bTotalBits (A ++ br :: after) (A ++ joinNext agree bTotalBits br after) := by
  unfold joinNext
  split
  · exact .refl _
  · split
    · next h => exact .step h (.refl _)
    · exact .refl _

theorem linkRegion_joined (before : List Region) (br : Region) (after : List Region) :
    Joined agree bTotalBits (before ++ br :: after)
      (linkRegion agree bTotalBits before br after) := by
  unfold linkRegion
  split
  · next h =>
    rw [getLast?_eq_none_iff.mp h]
    exact joinNext_joined [] br after
  · next prev h =>
    obtain ⟨A, rfl⟩ := getLast?_eq_some_iff.mp h
    rw [dropLast_concat, append_assoc]
    split
    · next hm => exact .step hm (joinNext_joined A _ after)
    · exact joinNext_joined A prev (br :: after)

/-- A list of regions that can be those of a bitmap. -/
structure Good (l : List Region) : Prop where
  sorted : Sorted l
  ok : ∀ r ∈ l, r.Ok

theorem Good.tail {l' : List Region} (h : Good (l ++ l')) : Good l' :=
  ⟨(pairwise_append.mp h.sorted).2.1, fun r hr => h.ok r (mem_append_right _ hr)⟩

theorem Good.insert {P S : List Region} {br : Region} (h : Good (P ++ S)) (hbr : br.Ok)
    (h1 : ∀ p ∈ P, p.stop ≤ br.brStartBit) (h2 : ∀ s ∈ S, br.stop ≤ s.brStartBit) :
    Good (P ++ br :: S) := by
  obtain ⟨hP, hS, hPS⟩ := pairwise_append.mp h.sorted
  obtain ⟨hokP, hokS⟩ := forall_mem_append.mp h.ok
  exact ⟨pairwise_append.mpr ⟨hP, pairwise_cons.mpr ⟨h2, hS⟩,
    fun p hp => forall_mem_cons.mpr ⟨h1 p hp, hPS p hp⟩⟩,
    forall_mem_append.mpr ⟨hokP, forall_mem_cons.mpr ⟨hbr, hokS⟩⟩⟩

theorem Good.around {P S : List Region} (h : Good (P ++ r :: S)) :
    (∀ p ∈ P, p.stop ≤ r.brStartBit) ∧ (∀ s ∈ S, r.stop ≤ s.brStartBit) ∧ Good (P ++ S) := by
  obtain ⟨-, hS, hP⟩ := pairwise_append.mp h.sorted
  have hsub := (sublist_cons_self r S).append_left P
  exact ⟨fun p hp => hP p hp r mem_cons_self, (pairwise_cons.mp hS).1, h.sorted.sublist hsub,
    fun q hq => h.ok q (hsub.subset hq)⟩

def setBitsOf (l : List Region) : Int := (l.map (·.brSetBits)).sum

def endOf (l : List Region) : Nat := (l.getLast?.map (·.stop)).getD 0

/-- What the merging of neighbours keeps. -/
structure Same (l l' : List Region) : Prop where
  good : Good l'
  bits : ∀ x, bitsOf l' x = bitsOf l x
  setBits : setBitsOf l' = setBitsOf l
  stop : endOf l' = endOf l

theorem Joined.same {l l' : List Region} (hj : Joined agree bTotalBits l l') (h : Good l) :
    Same l l' := by
  induction hj with
  | refl => exact ⟨h, fun _ => rfl, rfl, rfl⟩
  | @step A B l' a b m hm hj ih =>
    have hab := (h.ok a (by simp)).merged (h.ok b (by simp)) hm
    obtain ⟨ha, -, hbB⟩ := h.around
    obtain ⟨-, hb, hAB⟩ := hbB.around
    obtain ⟨h1, h2, h3, h4⟩ := ih (hAB.insert hab.ok (hab.start ▸ ha) (hab.stop ▸ hb))
    refine ⟨h1, fun x => ?_, ?_, ?_⟩
    · rw [h2]
      simp only [bitsOf_append, bitsOf_cons, hab.bits, Option.or_assoc]
    · rw [h3]
      simp only [setBitsOf, map_append, map_cons, sum_append, sum_cons, hab.setBits]
      omega
    · rw [h4, endOf, endOf]
      cases B with
      | nil => simp [hab.stop]
      | cons c B => simp

end Insert

/-! ### The search in the tree -/

/-- The trees hold the numbers of the regions in order. -/
def InOrder (shape : Nat → RTree) : Prop := ∀ n, (shape n).toList = List.range n

def spine (n : Nat) : RTree := (List.range n).foldr (fun i t => .node .leaf i t) .leaf

theorem spine_inOrder : InOrder spine := by
  intro n
  unfold spine
  induction List.range n with
  | nil => rfl
  | cons i l ih => exact congrArg (i :: ·) ih

section Search

variable {bitno n : Nat}

theorem lookup_cases (hl : Good l) (hwrap : bitno + n < 2 ^ 64) : ∀ t last,
    t.toList.Pairwise (· < ·) → (∀ i ∈ t.toList, i < l.length) →
    (∃ i ∈ t.toList, (l.getD i default).brStartBit < bitno + n ∧
      bitno < (l.getD i default).stop ∧ lookup l bitno n t last = (some i, none)) ∨
    ((∀ i ∈ t.toList, bitno + n ≤ (l.getD i default).brStartBit ∨ (l.getD i default).stop ≤ bitno) ∧
      lookup l bitno n t last = (none,
        (t.toList.find? fun i => bitno + n ≤ (l.getD i default).brStartBit).or last)) := by
  have hmono : ∀ i j, i < j → j < l.length →
      (l.getD i default).stop ≤ (l.getD j default).brStartBit := by
    intro i j hij hj
    rw [getD_eq_getElem _ _ (by omega), getD_eq_getElem _ _ hj]
    exact pairwise_iff_getElem.mp hl.sorted i j (by omega) hj hij
  have hpos : ∀ i, i < l.length → (l.getD i default).brStartBit < (l.getD i default).stop := by
    intro i hi
    rw [getD_eq_getElem _ _ hi]
    exact (hl.ok _ (getElem_mem hi)).lt_stop
  intro t
  induction t with
  | leaf => exact fun last _ _ => .inr ⟨nofun, by simp [lookup, RTree.toList]⟩
  | node left i right ihl ihr =>
    intro last hord hlt
    rw [RTree.toList] at hord hlt
    obtain ⟨hol, hor, hcross⟩ := pairwise_append.mp hord
    obtain ⟨hir, hor⟩ := pairwise_cons.mp hor
    have hi := hlt i (by simp)
    unfold lookup
    rw [Nat.mod_eq_of_lt hwrap]
    split
    · next h1 =>
      rcases ihl (some i) hol (fun j hj => hlt j (by simp [hj])) with ⟨j, hj, hmeet⟩ | ⟨hno, heq⟩
      · exact .inl ⟨j, by simp [RTree.toList, hj], hmeet⟩
      · refine .inr ⟨forall_mem_append.mpr ⟨hno, forall_mem_cons.mpr ⟨.inl h1, fun j hj => ?_⟩⟩, ?_⟩
        · have := hmono i j (hir j hj) (hlt j (by simp [hj]))
          have := hpos i hi
          omega
        · rw [heq, RTree.toList, find?_append, find?_cons_of_pos (by simpa using h1)]
          simp
    · next h1 =>
      split
      · next h2 =>
        have hleft : ∀ j ∈ left.toList, (l.getD j default).stop ≤ bitno := by
          intro j hj
          have := hmono j i (hcross j hj i (by simp)) hi
          have := hpos i hi
          omega
        rcases ihr last hor (fun j hj => hlt j (by simp [hj])) with ⟨j, hj, hmeet⟩ | ⟨hno, heq⟩
        · exact .inl ⟨j, by simp [RTree.toList, hj], hmeet⟩
        · refine .inr ⟨forall_mem_append.mpr
            ⟨fun j hj => .inr (hleft j hj), forall_mem_cons.mpr ⟨.inr h2, hno⟩⟩, ?_⟩
          · rw [heq, RTree.toList, find?_append, find?_cons_of_neg (by simpa using h1)]
            have hnone : left.toList.find? (fun i => bitno + n ≤ (l.getD i default).brStartBit) =
                none := by
              rw [find?_eq_none]
              intro j hj
              have := hleft j hj
              have := hpos j (hlt j (by simp [hj]))
              rw [decide_eq_true_eq]
              omega
            rw [hnone, Option.none_or]
      · exact .inl ⟨i, by simp [RTree.toList], by omega, by omega, rfl⟩

variable {shape : Nat → RTree} {b : Bitmap}

/-- The search finds a region that meets the range, or it finds the place between the regions
    where the range lies. -/
theorem search_cases (hshape : InOrder shape) (hl : Good b.regions) (hn : 0 < n)
    (hwrap : bitno + n < 2 ^ 64) :
    (∃ P r S, b.regions = P ++ r :: S ∧ r.brStartBit < bitno + n ∧ bitno < r.stop ∧
      b.search shape bitno n = (some P.length, none)) ∨
    ∃ P S, b.regions = P ++ S ∧ (∀ r ∈ P, r.stop ≤ bitno) ∧ (∀ r ∈ S, bitno + n ≤ r.brStartBit) ∧
      b.search shape bitno n = (none, if S = [] then none else some P.length) := by
  have horder : (shape b.regions.length).toList = List.range b.regions.length := hshape _
  rcases lookup_cases hl hwrap (shape b.regions.length) none
    (by rw [horder]; exact pairwise_lt_range)
      (by rw [horder]; exact fun i => mem_range.mp) with ⟨i, hi, h1, h2, heq⟩ | ⟨hno, heq⟩
  · rw [horder, mem_range] at hi
    rw [getD_eq_getElem _ _ hi] at h1 h2
    refine .inl ⟨b.regions.take i, b.regions[i], b.regions.drop (i + 1), ?_, h1, h2, ?_⟩
    · rw [← drop_eq_getElem_cons hi, take_append_drop]
    · rw [search, heq, length_take_of_le (le_of_lt hi)]
  · rw [horder] at hno heq
    have hsplit : b.regions.takeWhile (fun r => decide (r.stop ≤ bitno)) ++
        b.regions.dropWhile (fun r => decide (r.stop ≤ bitno)) = b.regions :=
      takeWhile_append_dropWhile
    generalize hP : b.regions.takeWhile (fun r => decide (r.stop ≤ bitno)) = P at hsplit
    generalize hS : b.regions.dropWhile (fun r => decide (r.stop ≤ bitno)) = S at hsplit
    have hbefore : ∀ r ∈ P, r.stop ≤ bitno := by
      intro r hr
      rw [← hP] at hr
      simpa using mem_takeWhile_imp hr
    -- The first region behind the range is not one before it, and so are the others.
    have hbehind : ∀ r ∈ S, bitno + n ≤ r.brStartBit := by
      cases S with
      | nil => exact nofun
      | cons s S =>
        have hs : bitno + n ≤ s.brStartBit := by
          have hnot : ¬s.stop ≤ bitno := by
            have := head?_dropWhile_not (fun r => decide (r.stop ≤ bitno)) b.regions
            rw [hS] at this
            simpa using this
          have := hno P.length (by simp [← hsplit])
          rw [← hsplit, getD_append_right _ _ _ _ (le_refl _), Nat.sub_self, getD_cons_zero] at this
          omega
        refine forall_mem_cons.mpr ⟨hs, fun r hr => ?_⟩
        have := (Good.around (hsplit ▸ hl)).2.1 r hr
        have := (hl.ok s (by simp [← hsplit])).lt_stop
        omega
    have hfirst : ∀ j, j < P.length → ¬bitno + n ≤ (b.regions.getD j default).brStartBit := by
      intro j hj
      rw [← hsplit, getD_append _ _ _ _ hj, getD_eq_getElem _ _ hj]
      have := hbefore _ (getElem_mem hj)
      have := (hl.ok P[j] (by simp [← hsplit])).lt_stop
      omega
    refine .inr ⟨P, S, hsplit.symm, hbefore, hbehind, ?_⟩
    rw [search, heq, Option.or_none]
    congr 1
    split
    · next h =>
      subst h
      rw [find?_eq_none]
      intro j hj
      rw [decide_eq_true_eq]
      exact hfirst j (by rw [← hsplit, append_nil] at hj; exact mem_range.mp hj)
    · next h =>
      obtain ⟨s, S, rfl⟩ := exists_cons_of_ne_nil h
      rw [find?_range_eq_some]
      refine ⟨?_, by simp [← hsplit], fun j hj => by simpa using hfirst j hj⟩
      rw [← hsplit, getD_append_right _ _ _ _ (le_refl _), Nat.sub_self]
      exact decide_eq_true (hbehind s mem_cons_self)

theorem insertRegion_eq {kind : Kind} {br : Region} {P S : List Region} (hshape : InOrder shape)
    (hl : Good (P ++ br :: S)) (hb : b.regions = P ++ S) (hstart : br.brStartBit ≤ b.bTotalBits)
    (hwrap : br.stop < 2 ^ 64) : insertRegion shape kind br b =
      (.ok (), { b with regions := linkRegion (kind != .chain) b.bTotalBits P br S }) := by
  obtain ⟨hbefore, hbr, hgood⟩ := hl.around
  rw [← hb] at hgood
  have hpos := (hl.ok br (by simp)).pos
  have hfree : (b.search shape br.brStartBit br.brValidBits).1 = none := by
    rcases search_cases hshape hgood hpos hwrap with ⟨P', r, S', heq, h1, h2, _⟩ |
      ⟨_, _, _, _, _, h⟩
    · have hr : r ∈ P ++ S := by simp [← hb, heq]
      rcases mem_append.mp hr with hr | hr
      · have := hbefore r hr
        omega
      · have := hbr r hr
        rw [Region.stop] at this
        omega
    · rw [h]
  have htake : b.regions.takeWhile (fun r => decide (r.stop ≤ br.brStartBit)) = P := by
    rw [hb, takeWhile_append_of_pos fun r hr => decide_eq_true (hbefore r hr)]
    cases S with
    | nil => simp
    | cons s S =>
      have h1 := hbr s mem_cons_self
      have h2 := (hl.ok s (by simp)).lt_stop
      have h3 := (hl.ok br (by simp)).lt_stop
      rw [takeWhile_cons_of_neg (by simp; omega), append_nil]
  unfold insertRegion
  rw [if_neg (not_lt.mpr hstart), hfree, if_neg (by simp)]
  dsimp only
  rw [htake, hb, drop_left]

theorem insertRegion_cases {kind : Kind} {br : Region} (hshape : InOrder shape)
    (hb : Good b.regions) (hbr : br.Ok) (hwrap : br.stop < 2 ^ 64) :
    ((b.bTotalBits < br.brStartBit ∨ ∃ r ∈ b.regions, r.brStartBit < br.stop ∧
      br.brStartBit < r.stop) ∧
      insertRegion shape kind br b = (.error .invalidBit, b)) ∨
    ∃ P S, b.regions = P ++ S ∧ Good (P ++ br :: S) ∧ insertRegion shape kind br b =
      (.ok (), { b with regions := linkRegion (kind != .chain) b.bTotalBits P br S }) := by
  by_cases hlt : b.bTotalBits < br.brStartBit
  · exact .inl ⟨.inl hlt, if_pos hlt⟩
  rcases search_cases hshape hb hbr.pos hwrap with
    ⟨P, r, S, heq, h1, h2, hs⟩ | ⟨P, S, heq, h1, h2, hs⟩
  · refine .inl ⟨.inr ⟨r, by simp [heq], h1, h2⟩, ?_⟩
    rw [insertRegion, if_neg hlt, hs]
    rfl
  · have hgood := (heq ▸ hb).insert hbr h1 h2
    exact .inr ⟨P, S, heq, hgood, insertRegion_eq hshape hgood heq (not_lt.mp hlt) hwrap⟩

end Search

end Ocfs2Tools.Bitmap
