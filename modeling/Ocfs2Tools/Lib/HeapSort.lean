import Mathlib

/-!
# Heap sort in place

The heap sort of the Linux kernel: an array is made a heap from the back, then the largest
element is moved behind the rest again and again. An array is a function of the index here.
The comparison is any strict order whose complement is transitive, so that elements may
compare equal. The result is a permutation of the array and ascends.
-/

namespace Ocfs2Tools.HeapSort

open List

variable {α : Type} (lt : α → α → Prop) [DecidableRel lt] {x : Nat}

/-! ### The algorithm -/

def swapAt (f : Nat → α) (i j : Nat) : Nat → α :=
  fun x => if x = i then f j else if x = j then f i else f x

/-- The larger child of `r` in a heap of `n` elements, if the left one is `2 * r + 1`. -/
def largerChild (n : Nat) (f : Nat → α) (r : Nat) : Nat :=
  if 2 * r + 1 < n - 1 ∧ lt (f (2 * r + 1)) (f (2 * r + 2)) then 2 * r + 2 else 2 * r + 1

/-- The element at `r` goes down until it is no smaller than its children. -/
def siftDown (n : Nat) : Nat → Nat → (Nat → α) → Nat → α
  | 0, _, f => f
  | fuel + 1, r, f =>
    if 2 * r + 1 < n then
      if lt (f r) (f (largerChild lt n f r)) then
        siftDown n fuel (largerChild lt n f r) (swapAt f r (largerChild lt n f r))
      else f
    else f

/-- The first loop: the elements below `i` are still to be sifted. -/
def heapify (n : Nat) : Nat → (Nat → α) → Nat → α
  | 0, f => f
  | i + 1, f => heapify n i (siftDown lt n n i f)

/-- The second loop: the first `i + 1` elements are a heap, those behind are sorted. -/
def sortLoop : Nat → (Nat → α) → Nat → α
  | 0, f => f
  | i + 1, f => sortLoop i (siftDown lt (i + 1) (i + 1) 0 (swapAt f 0 (i + 1)))

def heapSort [Inhabited α] (l : List α) : List α :=
  let n := l.length
  (List.range n).map (sortLoop lt (n - 1) (heapify lt n (n / 2) fun i => l.getD i default))

/-! ### Nothing is lost -/

variable {lt} {f g k : Nat → α} {n m i j r : Nat}

/-- `g` has the elements of `f`, and differs only below `n`. -/
def Shuffled (n : Nat) (f g : Nat → α) : Prop :=
  ∃ σ : Equiv.Perm Nat, (∀ x, n ≤ x → σ x = x) ∧ ∀ x, g x = f (σ x)

theorem Shuffled.refl (n : Nat) (f : Nat → α) : Shuffled n f f :=
  ⟨Equiv.refl Nat, fun _ _ => rfl, fun _ => rfl⟩

theorem Shuffled.trans (h : Shuffled n f g) (h' : Shuffled n g k) : Shuffled n f k := by
  obtain ⟨σ, hσ, hg⟩ := h
  obtain ⟨τ, hτ, hk⟩ := h'
  refine ⟨τ.trans σ, ?_, ?_⟩
  · intro x hx
    rw [Equiv.trans_apply, hτ x hx, hσ x hx]
  · intro x
    rw [hk, hg, Equiv.trans_apply]

theorem Shuffled.mono (h : Shuffled m f g) (hle : m ≤ n) : Shuffled n f g := by
  obtain ⟨σ, hσ, hg⟩ := h
  exact ⟨σ, fun x hx => hσ x (le_trans hle hx), hg⟩

theorem shuffled_swapAt (f : Nat → α) (hi : i < n) (hj : j < n) : Shuffled n f (swapAt f i j) := by
  refine ⟨Equiv.swap i j, ?_, ?_⟩
  · intro x hx
    exact Equiv.swap_apply_of_ne_of_ne (by omega) (by omega)
  · intro x
    unfold swapAt
    rw [Equiv.swap_apply_def]
    split
    · rfl
    · split
      · rfl
      · rfl

theorem Shuffled.outside (h : Shuffled n f g) (hx : n ≤ x) : g x = f x := by
  obtain ⟨σ, hσ, hg⟩ := h
  rw [hg, hσ x hx]

theorem perm_lt {σ : Equiv.Perm Nat} (hσ : ∀ x, n ≤ x → σ x = x) (hx : x < n) : σ x < n := by
  apply Nat.lt_of_not_le
  intro hle
  have hfix : σ (σ x) = σ x := hσ (σ x) hle
  have hxx : σ x = x := σ.injective hfix
  omega

theorem Shuffled.forall_lt (h : Shuffled n f g) {p : α → Prop} (hf : ∀ x, x < n → p (f x)) :
    ∀ x, x < n → p (g x) := by
  obtain ⟨σ, hσ, hg⟩ := h
  intro x hx
  rw [hg]
  exact hf (σ x) (perm_lt hσ hx)

theorem Shuffled.perm (h : Shuffled n f g) :
    ((List.range n).map g).Perm ((List.range n).map f) := by
  obtain ⟨σ, hσ, hg⟩ := h
  have hmap : (List.range n).map g = ((List.range n).map σ).map f := by
    rw [map_map]
    exact map_congr_left fun x _ => hg x
  rw [hmap]
  apply List.Perm.map
  rw [perm_ext_iff_of_nodup (nodup_range.map σ.injective) nodup_range]
  intro y
  rw [mem_map, mem_range]
  constructor
  · rintro ⟨x, hx, rfl⟩
    exact perm_lt hσ (mem_range.mp hx)
  · intro hy
    refine ⟨σ.symm y, ?_, σ.apply_symm_apply y⟩
    rw [mem_range]
    apply Nat.lt_of_not_le
    intro hle
    have := hσ _ hle
    rw [σ.apply_symm_apply] at this
    omega

theorem largerChild_lt (h : 2 * r + 1 < n) : largerChild lt n f r < n := by
  unfold largerChild
  split
  · omega
  · exact h

theorem largerChild_cases (lt : α → α → Prop) [DecidableRel lt] (n : Nat) (f : Nat → α) (r : Nat) :
    largerChild lt n f r = 2 * r + 1 ∨ largerChild lt n f r = 2 * r + 2 := by
  unfold largerChild
  split
  · exact .inr rfl
  · exact .inl rfl

theorem shuffled_siftDown (fuel r f) (hr : r < n) : Shuffled n f (siftDown lt n fuel r f) := by
  induction fuel generalizing r f with
  | zero => exact Shuffled.refl n f
  | succ fuel ih =>
    rw [siftDown]
    split
    · next hc =>
      split
      · have hlt := @largerChild_lt α lt _ f n r hc
        exact (shuffled_swapAt f hr hlt).trans (ih _ _ hlt)
      · exact Shuffled.refl n f
    · exact Shuffled.refl n f

theorem shuffled_heapify (i f) (hi : i ≤ n) : Shuffled n f (heapify lt n i f) := by
  induction i generalizing f with
  | zero => exact Shuffled.refl n f
  | succ i ih => exact (shuffled_siftDown n i f (by omega)).trans (ih _ (by omega))

/-! ### Heaps -/

/-- What the order has to be like: two elements are never each below the other, and not
    being above is transitive. -/
structure WeakOrder (lt : α → α → Prop) : Prop where
  asymm : ∀ a b, lt a b → ¬lt b a
  trans : ∀ a b c, ¬lt b a → ¬lt c b → ¬lt c a

/-- The element at `i` is no smaller than its children. -/
def AboveChildren (lt : α → α → Prop) (n : Nat) (f : Nat → α) (i : Nat) : Prop :=
  ∀ c, (c = 2 * i + 1 ∨ c = 2 * i + 2) → c < n → ¬lt (f i) (f c)

def HeapFrom (lt : α → α → Prop) (n k : Nat) (f : Nat → α) : Prop :=
  ∀ i, k ≤ i → AboveChildren lt n f i

theorem largerChild_max (ho : WeakOrder lt) {c : Nat} (hc : c = 2 * r + 1 ∨ c = 2 * r + 2)
    (hlt : c < n) : ¬lt (f (largerChild lt n f r)) (f c) := by
  have hirrefl : ∀ a, ¬lt a a := fun a h => ho.asymm a a h h
  unfold largerChild
  split
  · next h =>
    rcases hc with rfl | rfl
    · exact ho.asymm _ _ h.2
    · exact hirrefl _
  · next h =>
    rcases hc with rfl | rfl
    · exact hirrefl _
    · intro hl
      exact h ⟨by omega, hl⟩

theorem swapAt_left (f : Nat → α) (i j : Nat) : swapAt f i j i = f j := if_pos rfl

theorem swapAt_right (f : Nat → α) (i j : Nat) : swapAt f i j j = f i := by
  unfold swapAt
  split
  · next h => rw [h]
  · rw [if_pos rfl]

theorem swapAt_other (f : Nat → α) (hi : x ≠ i) (hj : x ≠ j) : swapAt f i j x = f x := by
  rw [swapAt, if_neg hi, if_neg hj]

/-- Sifting repairs a heap whose only wrong place is `r`. What makes the step go through is
    that the parent of `r` is no smaller than the children of `r`. -/
theorem siftDown_heap (ho : WeakOrder lt) {k : Nat} : ∀ fuel r f, k ≤ r →
    n - r ≤ fuel → (∀ i, k ≤ i → i ≠ r → AboveChildren lt n f i) →
    (∀ p, k ≤ p → (r = 2 * p + 1 ∨ r = 2 * p + 2) →
      ∀ c, (c = 2 * r + 1 ∨ c = 2 * r + 2) → c < n → ¬lt (f p) (f c)) →
    HeapFrom lt n k (siftDown lt n fuel r f) := by
  intro fuel
  induction fuel with
  | zero =>
    intro r f hk hfuel hrest _ i hi
    by_cases hir : i = r
    · intro c hc hlt
      omega
    · exact hrest i hi hir
  | succ fuel ih =>
    intro r f hk hfuel hrest hgrand
    have hfix : AboveChildren lt n f r → HeapFrom lt n k f := by
      intro hr i hi
      by_cases hir : i = r
      · rw [hir]
        exact hr
      · exact hrest i hi hir
    rw [siftDown]
    split
    · next hc =>
      have hmax := @largerChild_max α lt _ f n r ho
      have hcl := @largerChild_lt α lt _ f n r hc
      have hcc := largerChild_cases lt n f r
      generalize largerChild lt n f r = c at hmax hcl hcc
      split
      · next hlt =>
        apply ih c (swapAt f r c) (by omega) (by omega)
        · -- away from `c`, only `r` and its parent have changed
          intro i hi hic d hd hdn
          by_cases hir : i = r
          · rw [hir, swapAt_left]
            by_cases hdc : d = c
            · rw [hdc, swapAt_right]
              exact ho.asymm _ _ hlt
            · rw [swapAt_other f (by omega) hdc]
              exact hmax (by omega) hdn
          · rw [swapAt_other f hir hic]
            by_cases hdr : d = r
            · rw [hdr, swapAt_left]
              exact hgrand i hi (by omega) c hcc hcl
            · rw [swapAt_other f hdr (by omega)]
              exact hrest i hi hir d hd hdn
        · -- the parent of `c` is `r`, which holds what was at `c`
          intro p hp hpc d hd hdn
          have hpr : p = r := by omega
          rw [hpr, swapAt_left, swapAt_other f (by omega) (by omega)]
          exact hrest c (by omega) (by omega) d hd hdn
      · next hlt =>
        apply hfix
        intro d hd hdn
        exact ho.trans _ _ _ (hmax hd hdn) hlt
    · apply hfix
      intro d hd hdn
      omega

theorem heapify_heap (ho : WeakOrder lt) (i f) (h : HeapFrom lt n i f) :
    HeapFrom lt n 0 (heapify lt n i f) := by
  induction i generalizing f with
  | zero => exact h
  | succ i ih =>
    apply ih
    apply siftDown_heap ho n i f (le_refl i) (Nat.sub_le n i)
    · intro j hj hne
      exact h j (by omega)
    · omega

omit [DecidableRel lt] in
theorem HeapFrom.root_max (ho : WeakOrder lt) (h : HeapFrom lt n 0 f) :
    ∀ x, x < n → ¬lt (f 0) (f x) := by
  intro x
  induction x using Nat.strongRecOn with
  | ind x ih =>
    intro hx
    by_cases h0 : x = 0
    · rw [h0]
      exact fun hl => ho.asymm _ _ hl hl
    · have hparent := h ((x - 1) / 2) (Nat.zero_le _) x (by omega) hx
      have hup := ih ((x - 1) / 2) (by omega) (by omega)
      exact ho.trans _ _ _ hparent hup

/-- The state of the second loop at `i`: a heap in front, and behind it what is sorted
    already and not smaller. -/
structure SortInv (lt : α → α → Prop) (n i : Nat) (f : Nat → α) : Prop where
  heap : HeapFrom lt (i + 1) 0 f
  sorted : ∀ x y, i < x → x < y → y < n → ¬lt (f y) (f x)
  split : ∀ x y, x ≤ i → i < y → y < n → ¬lt (f y) (f x)

theorem sortLoop_sorted (ho : WeakOrder lt) : ∀ i f, i < n →
    SortInv lt n i f → ∀ x y, x < y → y < n → ¬lt (sortLoop lt i f y) (sortLoop lt i f x) := by
  intro i
  induction i with
  | zero =>
    intro f _ h x y hxy hy
    by_cases hx : x = 0
    · exact h.split x y (by omega) (by omega) hy
    · exact h.sorted x y (by omega) hxy hy
  | succ i ih =>
    intro f hi h
    have hroot := h.heap.root_max ho
    have hsh : Shuffled (i + 1) (swapAt f 0 (i + 1))
        (siftDown lt (i + 1) (i + 1) 0 (swapAt f 0 (i + 1))) :=
      shuffled_siftDown (i + 1) 0 _ (by omega)
    -- behind the heap nothing moves any more
    have hout : ∀ y, i + 1 < y → siftDown lt (i + 1) (i + 1) 0 (swapAt f 0 (i + 1)) y = f y := by
      intro y hy
      rw [hsh.outside (by omega), swapAt_other f (by omega) (by omega)]
    have hlast : siftDown lt (i + 1) (i + 1) 0 (swapAt f 0 (i + 1)) (i + 1) = f 0 := by
      rw [hsh.outside (le_refl _), swapAt_right]
    -- what is in front was in the heap before
    have hfront : ∀ p : α → Prop, (∀ x, x ≤ i + 1 → p (f x)) →
        ∀ x, x < i + 1 → p (siftDown lt (i + 1) (i + 1) 0 (swapAt f 0 (i + 1)) x) := by
      intro p hp
      refine hsh.forall_lt ?_
      intro x hx
      by_cases hx0 : x = 0
      · rw [hx0]
        exact hp (i + 1) (le_refl _)
      · rw [swapAt_other f hx0 (by omega)]
        exact hp x (by omega)
    apply ih _ (by omega)
    refine ⟨?_, ?_, ?_⟩
    · apply siftDown_heap ho (i + 1) 0 _ (le_refl 0) (by omega)
      · intro j _ hj c hc hlt
        rw [swapAt_other f hj (by omega), swapAt_other f (by omega) (by omega)]
        exact h.heap j (Nat.zero_le j) c hc (by omega)
      · omega
    · intro x y hx hxy hy
      by_cases hxi : x = i + 1
      · rw [hxi, hlast, hout y (by omega)]
        exact h.split 0 y (Nat.zero_le _) (by omega) hy
      · rw [hout x (by omega), hout y (by omega)]
        exact h.sorted x y (by omega) hxy hy
    · intro x y hx hiy hy
      apply hfront (fun a => ¬lt (siftDown lt (i + 1) (i + 1) 0 (swapAt f 0 (i + 1)) y) a) _ x
        (by omega)
      intro z hz
      by_cases hyi : y = i + 1
      · rw [hyi, hlast]
        exact hroot z (by omega)
      · rw [hout y (by omega)]
        exact h.split z y hz (by omega) hy

/-! ### The sort -/

theorem shuffled_sortLoop (i f) (hi : i < n) : Shuffled n f (sortLoop lt i f) := by
  induction i generalizing f with
  | zero => exact Shuffled.refl n f
  | succ i ih =>
    have hswap : Shuffled n f (swapAt f 0 (i + 1)) := shuffled_swapAt f (by omega) hi
    have hsift : Shuffled n (swapAt f 0 (i + 1))
        (siftDown lt (i + 1) (i + 1) 0 (swapAt f 0 (i + 1))) :=
      (shuffled_siftDown (i + 1) 0 _ (by omega)).mono (by omega)
    exact (hswap.trans hsift).trans (ih _ (by omega))

theorem map_range_getD [Inhabited α] (l : List α) :
    (List.range l.length).map (fun i => l.getD i default) = l := by
  apply ext_getElem
  · simp
  · intro i h1 h2
    simp [h2]

theorem heapSort_perm [Inhabited α] (lt : α → α → Prop) [DecidableRel lt] (l : List α) :
    (heapSort lt l).Perm l := by
  by_cases hn : l.length = 0
  · rw [length_eq_zero_iff.mp hn]
    rfl
  · have hsh : Shuffled l.length (fun i => l.getD i default)
        (sortLoop lt (l.length - 1) (heapify lt l.length (l.length / 2) fun i =>
          l.getD i default)) :=
      (shuffled_heapify _ _ (by omega)).trans (shuffled_sortLoop _ _ (by omega))
    have hperm := hsh.perm
    rw [map_range_getD] at hperm
    exact hperm

theorem heapSort_sorted [Inhabited α] (ho : WeakOrder lt) (l : List α) :
    (heapSort lt l).Pairwise fun a b => ¬lt b a := by
  unfold heapSort
  rw [pairwise_map]
  by_cases hn : l.length = 0
  · rw [hn]
    exact List.Pairwise.nil
  · have hheap : HeapFrom lt l.length 0
        (heapify lt l.length (l.length / 2) fun i => l.getD i default) := by
      apply heapify_heap ho
      intro i hi c hc hlt
      omega
    have hlen : l.length - 1 + 1 = l.length := by omega
    have hinv : SortInv lt l.length (l.length - 1)
        (heapify lt l.length (l.length / 2) fun i => l.getD i default) := by
      refine ⟨?_, fun x y hx hxy hy => by omega, fun x y hx hiy hy => by omega⟩
      rw [hlen]
      exact hheap
    have hsort := sortLoop_sorted ho (l.length - 1) _ (by omega) hinv
    apply pairwise_lt_range.imp_of_mem
    intro x y _ hy hxy
    exact hsort x y hxy (mem_range.mp hy)

end Ocfs2Tools.HeapSort
