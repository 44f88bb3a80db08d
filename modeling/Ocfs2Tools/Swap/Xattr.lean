import Ocfs2Tools.Swap.Blocks

/-!
# Round trips of extended attributes

To the order of the CPU, an entry is swapped before its value is looked at. On the way back
the value is looked at first. So when a value would leave the object, the loop stops with
this entry swapped in one direction and not swapped in the other: the entry is stranded.

This is followed on contents in which the header, the entries and the values that are
reached do not overlap (`Separate`).
-/

namespace Ocfs2Tools.Swap

open List

variable {xe i n : Nat} {gs : List Field}

section

variable (base limit xh : Nat) (m : Mem)

/-- Where the value of an entry is; `m` is the content on disk. -/
def diskValueAt (xe : Nat) : Nat := xh + leAt m (xe + 4) 2 + xattrSize (m (xe + 6)).toNat

/-- The entry number `i` lies in the object. -/
def entryFits (i : Nat) : Bool := !swapBarrier base limit (entryAt xh i) 16

/-- The value of the entry number `i` would leave the object. -/
def valueLeaves (i : Nat) : Bool :=
  swapBarrier base limit (diskValueAt xh m (entryAt xh i))
    (if xattrIsLocal m (entryAt xh i) then xattrSize (leAt m (entryAt xh i + 8) 8) else
      xattrRootSize)

def valueFields (i : Nat) : List Field :=
  if xattrIsLocal m (entryAt xh i) then []
  else xattrRootFields (diskValueAt xh m (entryAt xh i)) ++
    listFields base (xh + limit) (diskValueAt xh m (entryAt xh i) + 16) m

/-- The loop looks at the entry number `i`, once it gets there. -/
def Looks (i : Nat) : Prop := i < leAt m xh 2 ∧ entryFits base limit xh i = true

instance (i : Nat) : Decidable (Looks base limit xh m i) := inferInstanceAs (Decidable (_ ∧ _))

/-- The entries that are looked at from the number `i` on, each with its value. -/
def parts : Nat → Nat → List Field
  | 0, _ => []
  | n + 1, i =>
    if Looks base limit xh m i then
      ⟨entryAt xh i, 16⟩ :: (if valueLeaves base limit xh m i then []
        else valueFields base limit xh m i ++ parts n (i + 1))
    else []

def entriesFields : Nat → Nat → List Field
  | 0, _ => []
  | n + 1, i =>
    if Looks base limit xh m i then
      xattrEntryFields (entryAt xh i) ++ (if valueLeaves base limit xh m i then []
        else valueFields base limit xh m i ++ entriesFields n (i + 1))
    else []

def strandedFields : Nat → Nat → List Field
  | 0, _ => []
  | n + 1, i =>
    if Looks base limit xh m i then
      if valueLeaves base limit xh m i then xattrEntryFields (entryAt xh i)
      else strandedFields n (i + 1)
    else []

/-- The header, the entries that are looked at and their values do not overlap. -/
def Separate : Prop :=
  ((⟨xh, 16⟩ : Field) :: parts base limit xh m maxTurns 0).Pairwise Field.Apart

instance : Decidable (Separate base limit xh m) := inferInstanceAs (Decidable (List.Pairwise _ _))

end

variable {base limit xh : Nat} {m : Mem}

/-! ### One entry -/

theorem xattrEntryFields_apart (xe : Nat) : (xattrEntryFields xe).Pairwise Field.Apart := by
  simp [xattrEntryFields, Field.Apart]

theorem xattrEntryFields_bound (xe : Nat) : ∀ f ∈ xattrEntryFields xe,
    xe ≤ f.off ∧ f.off + f.width ≤ xe + 16 := by
  intro f hf
  simp only [xattrEntryFields, mem_cons, not_mem_nil, or_false] at hf
  rcases hf with rfl | rfl | rfl <;> dsimp only <;> omega

theorem apart_entryFields {g : Field} (h : g.Apart ⟨xe, 16⟩) :
    ∀ f ∈ xattrEntryFields xe, g.Apart f := by
  intro f hf
  obtain ⟨h1, h2⟩ := xattrEntryFields_bound xe f hf
  exact h.sub h1 h2

/-- The store `m'` has the entry at `xe` in the order of the CPU that `m` has as on disk. -/
structure Swapped (m m' : Mem) (xe : Nat) : Prop where
  offset : beAt m' (xe + 4) 2 = leAt m (xe + 4) 2
  size : beAt m' (xe + 8) 8 = leAt m (xe + 8) 8
  nameLen : m' (xe + 6) = m (xe + 6)
  type : m' (xe + 7) = m (xe + 7)

theorem swapped_of_apart (h : ∀ g ∈ gs, g.Apart ⟨xe, 16⟩) :
    Swapped m (swapFields m (gs ++ xattrEntryFields xe)) xe := by
  have hbyte : ∀ x, xe + 6 ≤ x → x < xe + 8 →
      swapFields m (gs ++ xattrEntryFields xe) x = m x := by
    intro x h1 h2
    refine swapFields_outside fun f hf => ?_
    rcases mem_append.mp hf with hf | hf
    · exact (h f hf).not_holds ⟨by dsimp only; omega, by dsimp only; omega⟩
    · simp only [xattrEntryFields, mem_cons, not_mem_nil, or_false] at hf
      rcases hf with rfl | rfl | rfl <;> unfold Field.Holds <;> dsimp only <;> omega
  constructor
  · rw [swapFields_append, beAt_swapFields_mem (xattrEntryFields_apart xe)
      (by simp [xattrEntryFields]), leAt_swapFields fun g hg => (h g hg).sub (by omega) (by omega)]
  · rw [swapFields_append, beAt_swapFields_mem (xattrEntryFields_apart xe)
      (by simp [xattrEntryFields]), leAt_swapFields fun g hg => (h g hg).sub (by omega) (by omega)]
  · exact hbyte _ (by omega) (by omega)
  · exact hbyte _ (by omega) (by omega)

namespace Swapped

variable {m' : Mem} {i : Nat}

theorem isLocal (h : Swapped m m' (entryAt xh i)) :
    xattrIsLocal m' (entryAt xh i) = xattrIsLocal m (entryAt xh i) := by
  rw [xattrIsLocal, h.type, xattrIsLocal]

theorem valueAt (h : Swapped m m' (entryAt xh i)) :
    valueAt m' xh (entryAt xh i) = diskValueAt xh m (entryAt xh i) := by
  rw [Swap.valueAt, h.offset, h.nameLen, diskValueAt]

theorem valueBarrier (h : Swapped m m' (entryAt xh i)) :
    valueBarrier base limit m' xh (entryAt xh i) = valueLeaves base limit xh m i := by
  rw [Swap.valueBarrier, h.valueAt, h.isLocal, h.size, valueLeaves]

end Swapped

/-! ### One value -/

theorem xattrRootFields_apart (xr : Nat) : (xattrRootFields xr).Pairwise Field.Apart := by
  simp [xattrRootFields, Field.Apart]

theorem xattrRootFields_bound (xr : Nat) : ∀ f ∈ xattrRootFields xr, f.off + f.width ≤ xr + 16 := by
  intro f hf
  simp only [xattrRootFields, mem_cons, not_mem_nil, or_false] at hf
  rcases hf with rfl | rfl <;> dsimp only <;> omega

theorem root_apart_list (xr : Nat) : ∀ g ∈ xattrRootFields xr,
    ∀ f ∈ listFields base limit (xr + 16) m, g.Apart f := by
  intro g hg f hf
  have h1 := xattrRootFields_bound xr g hg
  have h2 := listFields_ge base limit (xr + 16) m f hf
  exact .inl (by omega)

theorem root_list_swap {xr : Nat} (h : ∀ g ∈ gs, ∀ f ∈ listFields base limit (xr + 16) m,
    g.Apart f) :
    swapExtentListToCpu base limit (xr + 16) (swapFields (swapFields m gs) (xattrRootFields xr)) =
      swapFields m (gs ++ (xattrRootFields xr ++ listFields base limit (xr + 16) m)) := by
  rw [swapExtentListToCpu_eq, listFields_swapFields, listFields_swapFields, ← swapFields_append,
    ← swapFields_append]
  · exact fun g hg f hf => h g hg f (mem_listFields_of_primary base limit hf)
  · exact fun g hg f hf =>
      root_apart_list (m := m) _ g hg f (mem_listFields_of_primary base limit hf)

theorem valueToCpu_eq (hentry : Swapped m (swapFields m gs) (entryAt xh i))
    (h : ∀ g ∈ gs, ∀ f ∈ valueFields base limit xh m i, g.Apart f) :
    valueToCpu base limit (swapFields m gs) xh (entryAt xh i) =
      swapFields m (gs ++ valueFields base limit xh m i) := by
  unfold valueToCpu
  rw [hentry.isLocal, hentry.valueAt]
  unfold valueFields at *
  split
  · rw [append_nil]
  · next hlocal =>
    rw [if_neg hlocal] at h
    exact root_list_swap fun g hg f hf => h g hg f (mem_append_right _ hf)

theorem valueFromCpu_eq
    (hentry : Swapped m (swapFields m (gs ++ valueFields base limit xh m i)) (entryAt xh i))
    (h : ∀ g ∈ gs, ∀ f ∈ valueFields base limit xh m i, g.Apart f) :
    valueFromCpu base limit (swapFields m (gs ++ valueFields base limit xh m i)) xh (entryAt xh i) =
      swapFields m gs := by
  unfold valueFromCpu
  rw [hentry.isLocal, hentry.valueAt]
  unfold valueFields at *
  split
  · rw [append_nil]
  · next hlocal =>
    rw [if_neg hlocal] at h
    -- the list is as the other direction leaves it
    rw [← root_list_swap fun g hg f hf => h g hg f (mem_append_right _ hf),
      extentList_fromCpu_toCpu, swapFields_swapFields _ (xattrRootFields_apart _)]

/-! ### The loops -/

theorem entriesFields_apart {g : Field} : ∀ n i : Nat,
    (∀ f ∈ parts base limit xh m n i, g.Apart f) →
    ∀ f ∈ entriesFields base limit xh m n i, g.Apart f
  | 0, _, _, _, hf => nomatch hf
  | n + 1, i, h, f, hf => by
    unfold parts at h
    unfold entriesFields at hf
    split at hf
    · next hlook =>
      rw [if_pos hlook] at h
      rcases mem_append.mp hf with hf | hf
      · exact apart_entryFields (h _ mem_cons_self) f hf
      · split at hf
        · cases hf
        · next hleaves =>
          rw [if_neg hleaves] at h
          rcases mem_append.mp hf with hf | hf
          · exact h f (mem_cons_of_mem _ (mem_append_left _ hf))
          · exact entriesFields_apart n (i + 1)
              (fun f hf => h f (mem_cons_of_mem _ (mem_append_right _ hf))) f hf
    · cases hf

section Turn

variable {m' : Mem} (hcount : beAt m' xh 2 = leAt m xh 2)

include hcount

theorem ite_looks {α : Type} (hlook : Looks base limit xh m i) (a b c : α) :
    (if i < beAt m' xh 2 then if swapBarrier base limit (entryAt xh i) 16 then a else b else c) =
      b := by
  have hfits := hlook.2
  rw [entryFits, Bool.not_eq_true'] at hfits
  rw [hcount, if_pos hlook.1, hfits, if_neg (by decide)]

theorem ite_not_looks {α : Type} (hlook : ¬ Looks base limit xh m i) (a b : α) :
    (if i < beAt m' xh 2 then if swapBarrier base limit (entryAt xh i) 16 then a else b else a) =
      a := by
  rw [hcount]
  split
  · next hi =>
    rw [if_pos]
    by_contra hfits
    exact hlook ⟨hi, by rw [entryFits, eq_false_of_ne_true hfits]; rfl⟩
  · rfl

end Turn

/-- What is left to look at from the number `i` on overlaps neither itself nor the header nor
    the fields `gs`. -/
structure Clear (base limit xh : Nat) (m : Mem) (n i : Nat) (gs : List Field) : Prop where
  others : ∀ g ∈ gs, ∀ f ∈ parts base limit xh m n i, g.Apart f
  apart : (parts base limit xh m n i).Pairwise Field.Apart
  head : ∀ f ∈ parts base limit xh m n i, f.Apart ⟨xh, 16⟩

structure ClearEntry (xh i : Nat) (gs : List Field) : Prop where
  entry : ∀ g ∈ gs, g.Apart ⟨entryAt xh i, 16⟩
  entry_head : ∀ f ∈ xattrEntryFields (entryAt xh i), f.Apart ⟨xh, 16⟩

/-- The value of the entry at hand, if it is swapped, and what comes behind it. -/
structure ClearValue (base limit xh : Nat) (m : Mem) (n i : Nat) (gs : List Field) : Prop where
  value : ∀ g ∈ gs ++ xattrEntryFields (entryAt xh i), ∀ f ∈ valueFields base limit xh m i,
    g.Apart f
  value_entry : ∀ f ∈ valueFields base limit xh m i, f.Apart ⟨entryAt xh i, 16⟩
  value_head : ∀ f ∈ valueFields base limit xh m i, f.Apart ⟨xh, 16⟩
  rest : Clear base limit xh m n (i + 1)
    (gs ++ (xattrEntryFields (entryAt xh i) ++ valueFields base limit xh m i))
  rest_entry : ∀ f ∈ parts base limit xh m n (i + 1), f.Apart ⟨entryAt xh i, 16⟩

theorem fields_apart_of_entry {f : Field} (h : Field.Apart ⟨xe, 16⟩ f) :
    ∀ e ∈ xattrEntryFields xe, e.Apart f :=
  fun e he => (apart_entryFields h.symm e he).symm

namespace Clear

variable (h : Clear base limit xh m (n + 1) i gs) (hlook : Looks base limit xh m i)

include h hlook

theorem entry : ClearEntry xh i gs := by
  obtain ⟨hothers, -, hhead⟩ := h
  simp only [parts, if_pos hlook] at hothers hhead
  exact ⟨fun g hg => hothers g hg _ mem_cons_self, fields_apart_of_entry (hhead _ mem_cons_self)⟩

theorem value (hleaves : valueLeaves base limit xh m i = false) :
    ClearValue base limit xh m n i gs := by
  obtain ⟨hothers, hapart, hhead⟩ := h
  simp only [parts, if_pos hlook, hleaves, Bool.false_eq_true, if_false] at hothers hapart hhead
  obtain ⟨hbehind, hrest⟩ := pairwise_cons.mp hapart
  obtain ⟨-, hrest, hcross⟩ := pairwise_append.mp hrest
  refine ⟨forall_mem_append.mpr ⟨fun g hg f hf => ?_, fun g hg f hf => ?_⟩,
    fun f hf => (hbehind f (mem_append_left _ hf)).symm,
    fun f hf => hhead f (mem_cons_of_mem _ (mem_append_left _ hf)),
    ⟨forall_mem_append.mpr ⟨fun g hg f hf => ?_,
      forall_mem_append.mpr ⟨fun g hg f hf => ?_, hcross⟩⟩,
      hrest, fun f hf => hhead f (mem_cons_of_mem _ (mem_append_right _ hf))⟩,
    fun f hf => (hbehind f (mem_append_right _ hf)).symm⟩
  · exact hothers g hg f (mem_cons_of_mem _ (mem_append_left _ hf))
  · exact fields_apart_of_entry (hbehind f (mem_append_left _ hf)) g hg
  · exact hothers g hg f (mem_cons_of_mem _ (mem_append_right _ hf))
  · exact fields_apart_of_entry (hbehind f (mem_append_right _ hf)) g hg

end Clear

theorem ClearValue.count (h : ClearValue base limit xh m n i gs) (he : ClearEntry xh i gs)
    (hcount : beAt (swapFields m gs) xh 2 = leAt m xh 2) :
    beAt (swapFields m (gs ++ (xattrEntryFields (entryAt xh i) ++ valueFields base limit xh m i)))
      xh 2 = leAt m xh 2 := by
  rw [swapFields_append, beAt_swapFields, hcount]
  exact forall_mem_append.mpr ⟨fun f hf => (he.entry_head f hf).sub (le_refl _) (by omega),
    fun f hf => (h.value_head f hf).sub (le_refl _) (by omega)⟩

/-- The loop to the order of the CPU swaps the entries and values that it looks at; `gs` was
    swapped before. -/
theorem entriesToCpu_eq : ∀ n i gs, Clear base limit xh m n i gs →
    beAt (swapFields m gs) xh 2 = leAt m xh 2 → entriesToCpu base limit xh n i (swapFields m gs) =
      swapFields m (gs ++ entriesFields base limit xh m n i)
  | 0, _, gs, _, _ => by rw [entriesFields, append_nil]; rfl
  | n + 1, i, gs, hclear, hcount => by
    unfold entriesFields entriesToCpu
    by_cases hlook : Looks base limit xh m i
    · have hstep := hclear.entry hlook
      have hentry := swapped_of_apart (m := m) hstep.entry
      rw [ite_looks hcount hlook, if_pos hlook]
      dsimp only
      rw [← swapFields_append, hentry.valueBarrier]
      cases hleaves : valueLeaves base limit xh m i with
      | true => rw [if_pos rfl, if_pos rfl, append_nil]
      | false =>
        have hval := hclear.value hlook hleaves
        rw [if_neg (by decide), if_neg (by decide), valueToCpu_eq hentry hval.value,
          append_assoc, entriesToCpu_eq n (i + 1) _ hval.rest (hval.count hstep hcount)]
        simp only [append_assoc]
    · rw [ite_not_looks hcount hlook, if_neg hlook, append_nil]

theorem Clear.mono {gs' : List Field} (h : Clear base limit xh m n i gs')
    (hsub : ∀ g ∈ gs, g ∈ gs') :
    Clear base limit xh m n i gs :=
  ⟨fun g hg => h.others g (hsub g hg), h.apart, h.head⟩

theorem ClearValue.reorder (h : ClearValue base limit xh m n i gs) :
    swapFields m (gs ++ (xattrEntryFields (entryAt xh i) ++ (valueFields base limit xh m i ++
      entriesFields base limit xh m n (i + 1)))) =
    swapFields m (gs ++ entriesFields base limit xh m n (i + 1) ++
      xattrEntryFields (entryAt xh i) ++ valueFields base limit xh m i) := by
  rw [← append_assoc, ← append_assoc, swapFields_append _ _ (entriesFields _ _ _ _ _ _),
    append_assoc, swapFields_append, swapFields_comm, ← swapFields_append, ← swapFields_append,
    append_assoc, append_assoc]
  intro g hg f hf
  exact entriesFields_apart n (i + 1) (h.rest.others g (mem_append_right _ hg)) f hf

/-- The loop back undoes everything but the swap of the stranded entry; `gs` stays swapped. -/
theorem entriesFromCpu_eq : ∀ n i gs, Clear base limit xh m n i gs →
    beAt (swapFields m gs) xh 2 = leAt m xh 2 →
    entriesFromCpu base limit xh n i (swapFields m (gs ++ entriesFields base limit xh m n i)) =
      swapFields m (gs ++ strandedFields base limit xh m n i)
  | 0, _, gs, _, _ => rfl
  | n + 1, i, gs, hclear, hcount => by
    have hcount' : beAt (swapFields m (gs ++ entriesFields base limit xh m (n + 1) i)) xh 2 =
        leAt m xh 2 := by
      rw [swapFields_append, beAt_swapFields, hcount]
      intro f hf
      have := entriesFields_apart (n + 1) i (fun f hf => (hclear.head f hf).symm) f hf
      exact this.symm.sub (le_refl _) (by omega)
    unfold entriesFromCpu strandedFields
    by_cases hlook : Looks base limit xh m i
    · have hstep := hclear.entry hlook
      rw [ite_looks hcount' hlook, if_pos hlook]
      cases hleaves : valueLeaves base limit xh m i with
      | true =>
        have hfields : entriesFields base limit xh m (n + 1) i =
            xattrEntryFields (entryAt xh i) := by
          rw [entriesFields, if_pos hlook, if_pos hleaves, append_nil]
        rw [hfields, (swapped_of_apart hstep.entry).valueBarrier, hleaves, if_pos rfl, if_pos rfl]
      | false =>
        have hval := hclear.value hlook hleaves
        have hfields : entriesFields base limit xh m (n + 1) i = xattrEntryFields (entryAt xh i) ++
            (valueFields base limit xh m i ++ entriesFields base limit xh m n (i + 1)) := by
          rw [entriesFields, if_pos hlook, if_neg (by simp [hleaves])]
        have hrest : ∀ g ∈ gs ++ entriesFields base limit xh m n (i + 1),
            g.Apart ⟨entryAt xh i, 16⟩ ∧ ∀ f ∈ valueFields base limit xh m i, g.Apart f := by
          refine forall_mem_append.mpr ⟨fun g hg =>
            ⟨hstep.entry g hg, hval.value g (mem_append_left _ hg)⟩, fun g hg =>
            ⟨(entriesFields_apart n (i + 1) (fun f hf => (hval.rest_entry f hf).symm) g hg).symm,
              fun f hf => ?_⟩⟩
          exact (entriesFields_apart n (i + 1) (hval.rest.others f
            (mem_append_right _ (mem_append_right _ hf))) g hg).symm
        have hvalue : ∀ g ∈ gs ++ entriesFields base limit xh m n (i + 1) ++
            xattrEntryFields (entryAt xh i), ∀ f ∈ valueFields base limit xh m i, g.Apart f :=
          forall_mem_append.mpr ⟨fun g hg => (hrest g hg).2, fun g hg =>
            hval.value g (mem_append_right _ hg)⟩
        -- the entry reads the same with its value swapped behind it
        have hentry : Swapped m (swapFields m (gs ++ entriesFields base limit xh m n (i + 1) ++
            xattrEntryFields (entryAt xh i) ++ valueFields base limit xh m i)) (entryAt xh i) := by
          rw [append_assoc, swapFields_append, swapFields_append, swapFields_comm,
            ← swapFields_append, ← swapFields_append, ← append_assoc]
          · exact swapped_of_apart (forall_mem_append.mpr
              ⟨fun g hg => (hrest g hg).1, hval.value_entry⟩)
          · exact fun g hg => hval.value g (mem_append_right _ hg)
        rw [hfields, hval.reorder, hentry.valueBarrier, hleaves, if_neg (by decide),
          if_neg (by decide), valueFromCpu_eq hentry hvalue, swapFields_append,
          swapFields_swapFields _ (xattrEntryFields_apart _)]
        exact entriesFromCpu_eq n (i + 1) gs (hval.rest.mono fun g hg =>
          mem_append_left _ hg) hcount
    · have hfields : entriesFields base limit xh m (n + 1) i = [] := by
        rw [entriesFields, if_neg hlook]
      rw [ite_not_looks hcount' hlook, if_neg hlook, hfields]

/-! ### The header -/

theorem xattrHeaderFields_apart (xh : Nat) : (xattrHeaderFields xh).Pairwise Field.Apart := by
  simp [xattrHeaderFields, Field.Apart]

theorem xattrHeaderFields_bound (xh : Nat) : ∀ f ∈ xattrHeaderFields xh,
    xh ≤ f.off ∧ f.off + f.width ≤ xh + 16 := by
  intro f hf
  simp only [xattrHeaderFields, mem_cons, not_mem_nil, or_false] at hf
  rcases hf with rfl | rfl | rfl | rfl <;> dsimp only <;> omega

/-- The value of the entry number `k` leaves the object, and the loop gets there. -/
structure Stranded (base limit xh : Nat) (m : Mem) (k : Nat) : Prop where
  looks : ∀ j ≤ k, Looks base limit xh m j
  before : ∀ j < k, valueLeaves base limit xh m j = false
  leaves : valueLeaves base limit xh m k = true

theorem Stranded.unique {j k : Nat} (hj : Stranded base limit xh m j)
    (hk : Stranded base limit xh m k) : j = k := by
  rcases Nat.lt_trichotomy j k with h | h | h
  · exact absurd hj.leaves (by simp [hk.before j h])
  · exact h
  · exact absurd hk.leaves (by simp [hj.before k h])

theorem strandedFields_cases : ∀ n i : Nat, leAt m xh 2 ≤ i + n →
    (∀ j < i, Looks base limit xh m j ∧ valueLeaves base limit xh m j = false) →
    (∃ k, Stranded base limit xh m k ∧
      strandedFields base limit xh m n i = xattrEntryFields (entryAt xh k)) ∨
    (¬ ∃ k, Stranded base limit xh m k) ∧ strandedFields base limit xh m n i = []
  | 0, i, hn, hbefore => by
    refine .inr ⟨fun ⟨k, hk⟩ => ?_, rfl⟩
    rcases lt_or_ge k i with h | h
    · exact absurd hk.leaves (by simp [(hbefore k h).2])
    · have := (hk.looks i h).1
      omega
  | n + 1, i, hn, hbefore => by
    unfold strandedFields
    split
    · next hlook =>
      cases hleaves : valueLeaves base limit xh m i with
      | true =>
        refine .inl ⟨i, ⟨fun j hj => ?_, fun j hj => (hbefore j hj).2, hleaves⟩, if_pos rfl⟩
        rcases Nat.lt_or_eq_of_le hj with h | rfl
        · exact (hbefore j h).1
        · exact hlook
      | false =>
        rw [if_neg (by decide)]
        refine strandedFields_cases n (i + 1) (by omega) fun j hj => ?_
        rcases Nat.lt_succ_iff_lt_or_eq.mp hj with h | rfl
        · exact hbefore j h
        · exact ⟨hlook, hleaves⟩
    · next hlook =>
      refine .inr ⟨fun ⟨k, hk⟩ => ?_, rfl⟩
      rcases lt_or_ge k i with h | h
      · exact absurd hk.leaves (by simp [(hbefore k h).2])
      · exact hlook (hk.looks i h)

theorem strandedFields_mem {f : Field} : ∀ n i : Nat,
    f ∈ strandedFields base limit xh m n i → f ∈ entriesFields base limit xh m n i
  | 0, _, hf => hf
  | n + 1, i, hf => by
    unfold strandedFields at hf
    unfold entriesFields
    split at hf
    · next hlook =>
      rw [if_pos hlook]
      split at hf
      · exact mem_append_left _ hf
      · next hleaves =>
        rw [if_neg hleaves]
        exact mem_append_right _ (mem_append_right _ (strandedFields_mem n (i + 1) hf))
    · cases hf

theorem Separate.head (h : Separate base limit xh m) : ∀ g ∈ xattrHeaderFields xh,
    ∀ f ∈ parts base limit xh m maxTurns 0, g.Apart f := by
  intro g hg f hf
  obtain ⟨h1, h2⟩ := xattrHeaderFields_bound xh g hg
  exact (((pairwise_cons.mp h).1 f hf).symm.sub h1 h2).symm

theorem Separate.clear (h : Separate base limit xh m) :
    Clear base limit xh m maxTurns 0 (xattrHeaderFields xh) :=
  ⟨h.head, (pairwise_cons.mp h).2, fun f hf => ((pairwise_cons.mp h).1 f hf).symm⟩

theorem beAt_xattrHeader (xh : Nat) (m : Mem) :
    beAt (swapFields m (xattrHeaderFields xh)) xh 2 = leAt m xh 2 :=
  beAt_swapFields_mem (xattrHeaderFields_apart xh) (by simp [xattrHeaderFields])

theorem swapXattrsToCpu_eq (h : Separate base limit xh m) : swapXattrsToCpu base limit xh m =
    swapFields m (xattrHeaderFields xh ++ entriesFields base limit xh m maxTurns 0) :=
  entriesToCpu_eq maxTurns 0 _ h.clear (beAt_xattrHeader xh m)

/-- The way there and back leaves the stranded entry swapped, and nothing else. -/
theorem swapXattrs_fromCpu_toCpu (h : Separate base limit xh m) :
    swapXattrsFromCpu base limit xh (swapXattrsToCpu base limit xh m) =
      swapFields m (strandedFields base limit xh m maxTurns 0) := by
  have hback : ∀ g ∈ xattrHeaderFields xh, ∀ f ∈ strandedFields base limit xh m maxTurns 0,
      g.Apart f := fun g hg f hf =>
    entriesFields_apart maxTurns 0 (h.head g hg) f (strandedFields_mem maxTurns 0 hf)
  rw [swapXattrsToCpu_eq h, swapXattrsFromCpu,
    entriesFromCpu_eq maxTurns 0 _ h.clear (beAt_xattrHeader xh m), swapFields_append,
    swapFields_comm _ hback, swapFields_swapFields _ (xattrHeaderFields_apart xh)]

/-- The fields of the entry read the same in both byte orders. -/
def Symmetric (m : Mem) (xe : Nat) : Prop :=
  ∀ f ∈ xattrEntryFields xe, (bytesAt m f.off f.width).reverse = bytesAt m f.off f.width

/-- The attributes come back as they were when the stranded entry, if there is one, cannot
    tell the byte orders apart. -/
theorem swapXattrs_fromCpu_toCpu_iff (h : Separate base limit xh m) :
    swapXattrsFromCpu base limit xh (swapXattrsToCpu base limit xh m) = m ↔
      ∀ k, Stranded base limit xh m k → Symmetric m (entryAt xh k) := by
  rw [swapXattrs_fromCpu_toCpu h]
  have hlt : leAt m xh 2 ≤ 0 + maxTurns := by
    have := leNat_lt (bytesAt m xh 2)
    rw [bytesAt_length] at this
    exact le_of_lt (by unfold leAt maxTurns; omega)
  rcases strandedFields_cases maxTurns 0 hlt (fun j hj => absurd hj (Nat.not_lt_zero j)) with
    ⟨k, hk, heq⟩ | ⟨hno, heq⟩
  · rw [heq, swapFields_eq_self_iff (xattrEntryFields_apart _)]
    constructor
    · intro hsym j hj
      rwa [hj.unique hk]
    · exact fun hsym => hsym k hk
  · rw [heq]
    exact ⟨fun _ k hk => absurd ⟨k, hk⟩ hno, fun _ => rfl⟩

end Ocfs2Tools.Swap
