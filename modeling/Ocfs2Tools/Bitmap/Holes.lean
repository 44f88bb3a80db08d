import Ocfs2Tools.Bitmap.Bits

/-!
# Searching, and block bitmaps

A search goes over the regions from the one with the first bit on. In a block bitmap there are
gaps between the regions, and the search for a clear bit has to look there, too. It does not
look behind the last region.
-/

namespace Ocfs2Tools.Bitmap

open Bitops List Function
open ChainAlloc (RTree findNextBitSet_isNext findNextBitClear_isNext)

def Least (p : Nat → Prop) (start x : Nat) : Prop :=
  start ≤ x ∧ p x ∧ ∀ y, start ≤ y → y < x → ¬p y

/-! ### One region -/

section Region

variable {r : Region} {start : Nat} (h : r.Ok) (hstart : start < r.stop) (v : Bool)
include h hstart

theorem next_value : start - r.brStartBit + r.brBitmapStart ≤ r.next v start ∧
    r.next v start ≤ r.brTotalBits ∧
    (r.next v start < r.brTotalBits → testBit (r.next v start) r.brBitmap = v) ∧
    ∀ k, start - r.brStartBit + r.brBitmapStart ≤ k → k < r.next v start →
      testBit k r.brBitmap = !v := by
  have hfit := h.fits
  have hlt : start - r.brStartBit + r.brBitmapStart < r.brTotalBits := by
    have := h.pos
    unfold Region.stop at hstart
    unfold Region.brTotalBits
    omega
  cases v
  · have hnext := findNextBitClear_isNext hfit h.tail hlt
    exact ⟨hnext.ge (le_of_lt hlt), hnext.le, fun hk => Bool.not_eq_true' _ ▸ (hnext.found hk).2,
      fun k h1 h2 => Bool.not_eq_false' _ ▸ hnext.before k h1 h2⟩
  · have hnext := findNextBitSet_isNext hfit h.tail hlt
    exact ⟨hnext.ge (le_of_lt hlt), hnext.le, fun hk => (hnext.found hk).2, hnext.before⟩

theorem next_cases :
    (r.next v start = r.brTotalBits ∧ ∀ y, max start r.brStartBit ≤ y → r.bitAt y ≠ some v) ∨
    (r.next v start ≠ r.brTotalBits ∧ Least (fun y => r.bitAt y = some v) (max start r.brStartBit)
      (r.brStartBit + r.next v start - r.brBitmapStart)) := by
  obtain ⟨h1, h2, h3, h4⟩ := next_value h hstart v
  have hbefore : ∀ y, max start r.brStartBit ≤ y →
      y - r.brStartBit + r.brBitmapStart < r.next v start → r.bitAt y ≠ some v := by
    intro y hy hlt
    unfold Region.brTotalBits at h2
    rw [bitAt_inside (by omega) (by unfold Region.stop; omega), h4 _ (by omega) hlt]
    cases v <;> decide
  by_cases heq : r.next v start = r.brTotalBits
  · refine .inl ⟨heq, fun y hy => ?_⟩
    by_cases hlt : y < r.stop
    · refine hbefore y hy ?_
      rw [heq]
      unfold Region.stop at hlt
      unfold Region.brTotalBits
      omega
    · rw [bitAt_eq_none.mpr (.inr (not_lt.mp hlt))]
      exact nofun
  · refine .inr ⟨heq, by omega, ?_, fun y hy hlt => hbefore y hy (by omega)⟩
    have hlt := Nat.lt_of_le_of_ne h2 heq
    unfold Region.brTotalBits at hlt
    dsimp only
    rw [bitAt_inside (by omega) (by unfold Region.stop; omega), show r.brStartBit + r.next v start -
      r.brBitmapStart - r.brStartBit + r.brBitmapStart = r.next v start by omega]
    exact congrArg some (h3 hlt)

end Region

/-! ### The loops -/

section Loops

variable {start : Nat} {r : Region} {l : List Region}

theorem bitAt_eq_some {v : Bool} {x : Nat} (h : r.bitAt x = some v) :
    r.brStartBit ≤ x ∧ x < r.stop := by
  by_contra hno
  rw [bitAt_eq_none.mpr (by omega)] at h
  cases h

theorem bitsOf_cons_eq_some (h : Good (r :: l)) (v : Bool) (x : Nat) :
    (bitsOf (r :: l) x = some v ↔ r.bitAt x = some v ∨ bitsOf l x = some v) ∧
    (bitsOf l x = some v → r.stop ≤ x) := by
  have hsome : bitsOf l x = some v → r.stop ≤ x := by
    intro hx
    obtain ⟨s, hs, hbit⟩ := exists_of_findSome?_eq_some hx
    have := (pairwise_cons.mp h.sorted).1 s hs
    have := (bitAt_eq_some hbit).1
    omega
  refine ⟨?_, hsome⟩
  rw [bitsOf_cons]
  cases hr : r.bitAt x with
  | none => simp
  | some w =>
    have := bitAt_eq_some hr
    simp only [Option.some_or, iff_self_or]
    intro hx
    have := hsome hx
    omega

theorem findIn_spec (v : Bool) : ∀ l : List Region, Good l → (∀ r ∈ l, start < r.stop) →
    match findIn v start l with
    | some x => Least (fun y => bitsOf l y = some v) start x
    | none => ∀ y, start ≤ y → bitsOf l y ≠ some v
  | [], _, _ => by exact nofun
  | r :: l, h, hstop => by
    have ih := findIn_spec v l (h.tail (l := [r])) fun s hs => hstop s (by simp [hs])
    have hbits := bitsOf_cons_eq_some h v
    rw [findIn]
    rcases next_cases (h.ok r (by simp)) (hstop r (by simp)) v with ⟨heq, hno⟩ | ⟨hne, h1, h2, h3⟩
    · have hno : ∀ y, start ≤ y → r.bitAt y ≠ some v := by
        intro y hy hbit
        have := (bitAt_eq_some hbit).1
        exact hno y (by omega) hbit
      rw [if_neg (not_not.mpr heq)]
      split
      · next x hx =>
        rw [hx] at ih
        refine ⟨ih.1, ((hbits x).1).mpr (.inr ih.2.1), fun y hy hlt hbit => ?_⟩
        exact ((hbits y).1.mp hbit).elim (hno y hy) (ih.2.2 y hy hlt)
      · next hx =>
        rw [hx] at ih
        exact fun y hy hbit => ((hbits y).1.mp hbit).elim (hno y hy) (ih y hy)
    · rw [if_pos hne]
      refine ⟨by omega, (hbits _).1.mpr (.inl h2), fun y hy hlt hbit => ?_⟩
      rcases (hbits y).1.mp hbit with hb | hb
      · have := (bitAt_eq_some hb).1
        exact h3 y (by omega) hlt hb
      · have := (hbits y).2 hb
        have := (bitAt_eq_some h2).2
        omega

theorem findClearHoles_spec : ∀ l seen, Good l →
    (∀ r ∈ l, seen < r.stop) → start ≤ seen → (seen = start ∨ ∀ r ∈ l, seen ≤ r.brStartBit) →
    match findClearHoles start seen l with
    | some x => x < endOf l ∧ Least (fun y => bitsOf l y ≠ some true) seen x
    | none => ∀ y, seen ≤ y → y < endOf l → bitsOf l y = some true
  | [], _, _, _, _, _ => by intro y _ hy; cases hy
  | r :: l, seen, h, hstop, hle, hseen => by
    have hbits := bitsOf_cons_eq_some h true
    have hr := hstop r (by simp)
    have hend := h.stop_le (r := r) (by simp)
    have hlast : l ≠ [] → endOf (r :: l) = endOf l := by
      intro hl
      obtain ⟨s, l, rfl⟩ := exists_cons_of_ne_nil hl
      rfl
    rw [findClearHoles]
    by_cases hhole : seen < r.brStartBit
    · rw [if_pos hhole]
      refine ⟨by omega, le_refl _, fun hbit => ?_, fun y h1 h2 => by omega⟩
      rcases (hbits seen).1.mp hbit with hb | hb
      · have := (bitAt_eq_some hb).1
        omega
      · have := (hbits seen).2 hb
        omega
    · have hmax : max start r.brStartBit = seen := by
        rcases hseen with rfl | hs
        · omega
        · have := hs r (by simp)
          omega
      have hset : ∀ y, seen ≤ y → y < r.stop → r.bitAt y ≠ some false →
          bitsOf (r :: l) y = some true := by
        intro y h1 h2 h3
        refine (hbits y).1.mpr (.inl ?_)
        rw [bitAt_inside (by omega) h2] at h3 ⊢
        simpa using h3
      rw [if_neg hhole]
      rcases next_cases (h.ok r (by simp)) (lt_of_le_of_lt hle hr) false with
        ⟨heq, hno⟩ | ⟨hne, h1, h2, h3⟩
      · have hafter := (pairwise_cons.mp h.sorted).1
        have ih := findClearHoles_spec l r.stop (h.tail (l := [r]))
          (fun s hs => lt_of_le_of_lt (hafter s hs) (h.ok s (by simp [hs])).lt_stop) (by omega)
          (.inr hafter)
        rw [hmax] at hno
        rw [if_neg (not_not.mpr heq)]
        split
        · next x hx =>
          rw [hx] at ih
          obtain ⟨hx, h1, h2, h3⟩ := ih
          have hne : l ≠ [] := by
            rintro rfl
            cases hx
          refine ⟨hlast hne ▸ hx, by omega, fun hbit => ?_, fun y hy hlt => not_not.mpr ?_⟩
          · rcases (hbits x).1.mp hbit with hb | hb
            · have := (bitAt_eq_some hb).2
              omega
            · exact h2 hb
          · by_cases hin : y < r.stop
            · exact hset y hy hin (hno y hy)
            · exact (hbits y).1.mpr (.inr (not_not.mp (h3 y (by omega) hlt)))
        · next hx =>
          rw [hx] at ih
          intro y hy hlt
          by_cases hin : y < r.stop
          · exact hset y hy hin (hno y hy)
          · refine (hbits y).1.mpr (.inr (ih y (by omega) (hlast ?_ ▸ hlt)))
            rintro rfl
            exact hin hlt
      · rw [hmax] at h1 h3
        have hin := (bitAt_eq_some h2).2
        rw [if_pos hne]
        refine ⟨by omega, h1, fun hbit => ?_, fun y hy hlt =>
          not_not.mpr (hset y hy (by omega) (h3 y hy hlt))⟩
        rcases (hbits _).1.mp hbit with hb | hb
        · rw [h2] at hb
          cases hb
        · have := (hbits _).2 hb
          omega

theorem regionsFrom_spec {shape : Nat → RTree} {b : Bitmap} (hshape : InOrder shape)
    (hb : Good b.regions) (hstart : start + 1 < 2 ^ 64) : ∃ P L, b.regions = P ++ L ∧
      (∀ r ∈ P, r.stop ≤ start) ∧ (∀ r ∈ L, start < r.stop) ∧ b.regionsFrom shape start = L ∧
      (b.search shape start 1 = (none, none) ↔ L = []) := by
  rcases search_cases hshape hb Nat.one_pos hstart with
    ⟨P, r, S, heq, h1, h2, hs⟩ | ⟨P, S, heq, h1, h2, hs⟩
  · rw [heq] at hb
    obtain ⟨hP, hS, -⟩ := hb.around
    refine ⟨P, r :: S, heq, fun p hp => ?_, forall_mem_cons.mpr ⟨h2, fun s hs => ?_⟩, ?_,
      by simp [hs]⟩
    · have := hP p hp
      omega
    · have := hS s hs
      have := (hb.ok s (by simp [hs])).lt_stop
      omega
    · rw [regionsFrom, hs, heq]
      exact drop_left
  · refine ⟨P, S, heq, h1, fun s hs => ?_, ?_, by rw [hs]; split <;> simp [*]⟩
    · have := h2 s hs
      have := (hb.ok s (by simp [heq, hs])).lt_stop
      omega
    · rw [regionsFrom, hs]
      by_cases hS : S = []
      · rw [if_pos hS, hS]
      · rw [if_neg hS, heq]
        exact drop_left

theorem findNext_set (kind : Kind) {shape : Nat → RTree} {b : Bitmap} (hshape : InOrder shape)
    (hb : Good b.regions) (htotal : b.bTotalBits < 2 ^ 64) (hstart : start < b.bTotalBits) :
    match findNext shape kind true start b with
    | .ok x => Least (fun y => bitsOf b.regions y = some true) start x
    | .error e => e = .bitNotFound ∧ ∀ y, start ≤ y → bitsOf b.regions y ≠ some true := by
  obtain ⟨P, L, heq, hP, hL, hfrom, -⟩ := regionsFrom_spec hshape hb (by omega : start + 1 < _)
  have hbits : ∀ y, start ≤ y → bitsOf b.regions y = bitsOf L y := by
    intro y hy
    rw [heq, bitsOf_append, bitsOf_eq_none.mpr fun r hr => .inr ((hP r hr).trans hy),
      Option.none_or]
  have hspec := findIn_spec true L (Good.tail (heq ▸ hb)) hL
  rw [findNext, if_neg (not_le.mpr hstart), if_neg (by simp), hfrom]
  cases hx : findIn true start L with
  | some x =>
    rw [hx] at hspec
    exact ⟨hspec.1, (hbits x hspec.1).trans hspec.2.1, fun y h1 h2 hy =>
      hspec.2.2 y h1 h2 ((hbits y h1).symm.trans hy)⟩
  | none =>
    rw [hx] at hspec
    exact ⟨rfl, fun y h1 hy => hspec y h1 ((hbits y h1).symm.trans hy)⟩

end Loops

/-! ### Histories of block bitmaps -/

/-- A call of `ocfs2_bitmap_set` or `ocfs2_bitmap_clear`, with what is in its variable. -/
structure BitOp where
  value : Bool
  bitno : Nat
  junk : Bool

def BitOp.run (shape : Nat → RTree) (kind : Kind) (b : Bitmap) (op : BitOp) : Option Bitmap :=
  (bitmapChange shape kind op.junk op.value op.bitno b).map (·.2)

/-- The function that a history of a bitmap of `total` bits stands for. -/
def valuesAfter (total : Nat) (ops : List BitOp) : Nat → Bool :=
  ops.foldl (fun A op => if op.bitno < total then update A op.bitno op.value else A) fun _ => false

/-- The bit behind all those that were set or cleared. -/
def touched (total : Nat) (ops : List BitOp) : Nat :=
  ops.foldl (fun e op => if op.bitno < total then max (op.bitno + 1) e else e) 0

/-- The bitmap stands for the function `A`. -/
structure Holds (total : Nat) (A : Nat → Bool) (stop : Nat) (b : Bitmap) : Prop where
  good : Good b.regions
  size : b.bTotalBits = total
  values : ∀ x, (bitsOf b.regions x).getD false = A x
  last : endOf b.regions = stop
  last_le : stop ≤ total

section History

variable {shape : Nat → RTree} (hshape : InOrder shape) {total : Nat} (htotal : total < 2 ^ 64)
include hshape htotal

theorem Holds.step {A : Nat → Bool} {stop : Nat} {b : Bitmap} (h : Holds total A stop b)
    (op : BitOp) : ∃ b', op.run shape .block b = some b' ∧
      Holds total (if op.bitno < total then update A op.bitno op.value else A)
        (if op.bitno < total then max (op.bitno + 1) stop else stop) b' := by
  obtain ⟨hgood, rfl, hval, hstop, hle⟩ := h
  unfold BitOp.run
  rcases @bitmapChange_cases shape .block b op.bitno op.value hshape hgood htotal op.junk with
    ⟨h' | ⟨h', -⟩, heq⟩ | ⟨l', hlt, -, hch, heq⟩
  · refine ⟨b, by rw [heq]; rfl, ?_⟩
    rw [if_neg (not_lt.mpr h'), if_neg (not_lt.mpr h')]
    exact ⟨hgood, rfl, hval, hstop, hle⟩
  · exact absurd rfl h'
  · refine ⟨_, by rw [heq]; rfl, ?_⟩
    rw [if_pos hlt, if_pos hlt]
    refine ⟨hch.good, rfl, fun x => ?_, hch.stop.trans (hstop ▸ rfl), by omega⟩
    rw [hch.bits, update_apply, ← hval]
    split <;> rfl

theorem Holds.run (ops : List BitOp) : ∀ {A stop b},
    Holds total A stop b → ∃ b', ops.foldlM (BitOp.run shape .block) b = some b' ∧ Holds total
        (ops.foldl (fun A op => if op.bitno < total then update A op.bitno op.value else A) A)
        (ops.foldl (fun e op => if op.bitno < total then max (op.bitno + 1) e else e) stop) b' := by
  induction ops with
  | nil => exact fun h => ⟨_, rfl, h⟩
  | cons op ops ih =>
    intro A stop b h
    obtain ⟨b₁, heq, h₁⟩ := h.step hshape htotal op
    obtain ⟨b₂, heq₂, h₂⟩ := ih h₁
    refine ⟨b₂, ?_, h₂⟩
    rw [foldlM_cons, heq]
    exact heq₂

/-- What a search may answer: the first such bit, or an error only if there is none. -/
def Answers (p : Nat → Prop) (total start : Nat) : Except BitmapError Nat → Prop
  | .ok x => x < total ∧ Least p start x
  | .error e => e = .bitNotFound ∧ ∀ y, start ≤ y → y < total → ¬p y

/-- Every query of the bitmap is answered from the function. -/
structure Right (shape : Nat → RTree) (A : Nat → Bool) (start : Nat) (b : Bitmap) : Prop where
  test : ∀ x, x < b.bTotalBits → bitmapTest shape .block x b = .ok (A x)
  set : Answers (A · = true) b.bTotalBits start (findNext shape .block true start b)
  clear : Answers (A · = false) b.bTotalBits start (findNext shape .block false start b)

theorem Holds.right_iff {A : Nat → Bool} {stop start : Nat} {b : Bitmap} (h : Holds total A stop b)
    (hstart : start < total) : Right shape A start b ↔
      ¬(start < stop ∧ stop < total ∧ ∀ x, start ≤ x → x < stop → A x = true) := by
  obtain ⟨hgood, rfl, hval, hstop, hle⟩ := h
  obtain ⟨P, L, heq, hP, hL, hfrom, hempty⟩ :=
      regionsFrom_spec hshape hgood (by omega : start + 1 < _)
  have hgoodL : Good L := Good.tail (heq ▸ hgood)
  have hA : ∀ y, start ≤ y → (bitsOf L y = some true ↔ A y = true) := by
    intro y hy
    rw [← hval, heq, bitsOf_append, bitsOf_eq_none.mpr fun r hr => .inr ((hP r hr).trans hy)]
    cases bitsOf L y <;> simp
  have hlt : ∀ y, A y = true → y < stop := by
    intro y hy
    rw [← hval] at hy
    cases hbit : bitsOf b.regions y with
    | none =>
      rw [hbit] at hy
      cases hy
    | some v =>
      obtain ⟨r, hr, hv⟩ := exists_of_findSome?_eq_some hbit
      exact hstop ▸ lt_of_lt_of_le (bitAt_eq_some hv).2 (hgood.stop_le hr)
  have htest : ∀ x, x < b.bTotalBits → bitmapTest shape .block x b = .ok (A x) := by
    intro x hx
    rw [bitmapTest_eq hshape hgood (by omega) hx, ← hval]
    cases bitsOf b.regions x <;> rfl
  have hbit : ∀ y, bitsOf b.regions y = some true ↔ A y = true := by
    intro y
    rw [← hval]
    cases bitsOf b.regions y <;> simp
  have hset : Answers (A · = true) b.bTotalBits start (findNext shape .block true start b) := by
    have hspec := findNext_set .block hshape hgood htotal hstart
    cases hx : findNext shape .block true start b with
    | ok x =>
      rw [hx] at hspec
      have hx := (hbit x).mp hspec.2.1
      exact ⟨lt_of_lt_of_le (hlt x hx) hle, hspec.1, hx,
        fun y h1 h2 hy => hspec.2.2 y h1 h2 ((hbit y).mpr hy)⟩
    | error e =>
      rw [hx] at hspec
      exact ⟨hspec.1, fun y h1 _ hy => hspec.2 y h1 ((hbit y).mpr hy)⟩
  suffices hclear : Answers (A · = false) b.bTotalBits start (findNext shape .block false start b) ↔
      ¬(start < stop ∧ stop < b.bTotalBits ∧ ∀ x, start ≤ x → x < stop → A x = true) from
    ⟨fun h => hclear.mp h.clear, fun h => ⟨htest, hset, hclear.mpr h⟩⟩
  unfold findNext
  rw [if_neg (not_le.mpr hstart), if_pos (by simp), hfrom]
  by_cases hnil : L = []
  · -- nothing behind: `start` is clear
    have hstart' : A start = false := by
      have := hA start (le_refl _)
      rw [hnil] at this
      simpa [bitsOf] using this
    rw [if_pos (hempty.mpr hnil)]
    refine iff_of_true ⟨hstart, le_refl _, hstart', fun y h1 h2 => by omega⟩ fun h => ?_
    rw [h.2.2 start (le_refl _) h.1] at hstart'
    cases hstart'
  · have hspec := findClearHoles_spec L start hgoodL hL (le_refl _) (.inl rfl)
    have hend : endOf L = stop := by
      rw [← hstop, heq, endOf, endOf, getLast?_append_of_ne_nil _ hnil]
    have hreach : start < stop := by
      obtain ⟨r, l, rfl⟩ := exists_cons_of_ne_nil hnil
      have := hL r (by simp)
      have := hgoodL.stop_le (r := r) (by simp)
      omega
    rw [if_neg (mt hempty.mp hnil)]
    dsimp only
    split
    · next x hx =>
      rw [hx, hend] at hspec
      obtain ⟨h1, h2, h3, h4⟩ := hspec
      have hx : A x = false := by simpa using mt (hA x h2).mpr h3
      refine iff_of_true ⟨lt_of_lt_of_le h1 hle, h2, hx, fun y hy hyx => ?_⟩ fun h => ?_
      · dsimp only
        rw [(hA y hy).mp (not_not.mp (h4 y hy hyx))]
        decide
      · rw [h.2.2 x h2 h1] at hx
        cases hx
    · next hx =>
      rw [hx, hend] at hspec
      have hall : ∀ x, start ≤ x → x < stop → A x = true :=
        fun x h1 h2 => (hA x h1).mp (hspec x h1 h2)
      constructor
      · rintro ⟨-, hno⟩ ⟨-, hshort, -⟩
        refine hno stop (le_of_lt hreach) hshort ?_
        by_contra hs
        exact lt_irrefl _ (hlt stop (by simpa using hs))
      · intro hno
        refine ⟨rfl, fun y h1 h2 (hy : A y = false) => ?_⟩
        rw [hall y h1 (by by_contra hge; exact hno ⟨hreach, by omega, hall⟩)] at hy
        cases hy

/-- A block bitmap stands for its history, except where the bits from `start` to the last one
    that was ever set or cleared are all set and there are others behind them. -/
theorem holes_right_iff (ops : List BitOp) {start : Nat} (hstart : start < total) :
    (∃ b, ops.foldlM (BitOp.run shape .block) ⟨total, 0, []⟩ = some b ∧
      Right shape (valuesAfter total ops) start b) ↔
    ¬(start < touched total ops ∧ touched total ops < total ∧
      ∀ x, start ≤ x → x < touched total ops → valuesAfter total ops x = true) := by
  have hnew : Holds total (fun _ => false) 0 ⟨total, 0, []⟩ :=
    ⟨⟨.nil, nofun⟩, rfl, fun _ => rfl, rfl, Nat.zero_le _⟩
  obtain ⟨b, heq, hb⟩ := hnew.run hshape htotal ops
  rw [heq]
  refine Iff.trans ⟨?_, fun h => ⟨b, rfl, h⟩⟩ (hb.right_iff hshape htotal hstart)
  rintro ⟨b', hb', h⟩
  exact Option.some.inj hb' ▸ h

end History

/-- Bit 5 is set. From there on the next clear bit is 6, which is not found. -/
theorem holes_behind_last : valuesAfter 10 [⟨true, 5, false⟩] 6 = false ∧
    ((BitOp.run spine .block ⟨10, 0, []⟩ ⟨true, 5, false⟩).map
      fun b => (findNext spine .block false 5 b).toOption) = some none := by decide

theorem holes_right_between : ∃ b,
    [(⟨true, 5, false⟩ : BitOp), ⟨true, 7, false⟩].foldlM (BitOp.run spine .block) ⟨10, 0, []⟩ =
      some b ∧ Right spine (valuesAfter 10 [⟨true, 5, false⟩, ⟨true, 7, false⟩]) 5 b :=
  (holes_right_iff spine_inOrder (by decide) _ (by decide)).mpr fun h =>
    absurd (h.2.2 6 (by decide) (by decide)) (by decide)

end Ocfs2Tools.Bitmap
