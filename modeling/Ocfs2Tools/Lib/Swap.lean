import Ocfs2Tools.Lib.Bytes

/-!
# Swapping the bytes of fields

A field is a run of bytes in a byte store; swapping it reverses the run. Fields that do not
overlap are swapped independently, so that swapping a list of them twice gives the store
back. A field that was swapped reads big endian as it read little endian before.

The last part is about the loops that swap an array of records up to a bound: when what
they decide on lies before the records, they swap a list of fields that can be written down
beforehand.
-/

namespace Ocfs2Tools

open List

/-- A run of bytes: where it starts and how long it is. -/
structure Field where
  off : Nat
  width : Nat
deriving DecidableEq, Repr

namespace Field

/-- `x` is one of the offsets of the field. -/
def Holds (f : Field) (x : Nat) : Prop := f.off ≤ x ∧ x < f.off + f.width

instance (f : Field) (x : Nat) : Decidable (f.Holds x) := inferInstanceAs (Decidable (_ ∧ _))

/-- The offset that changes places with `x`. -/
def mirror (f : Field) (x : Nat) : Nat := 2 * f.off + f.width - 1 - x

/-- The fields do not overlap. -/
def Apart (f g : Field) : Prop := f.off + f.width ≤ g.off ∨ g.off + g.width ≤ f.off

instance (f g : Field) : Decidable (f.Apart g) := inferInstanceAs (Decidable (_ ∨ _))

variable {f g : Field} {x : Nat}

theorem Apart.symm (h : f.Apart g) : g.Apart f := Or.symm h

theorem Apart.sub {off width off' width' : Nat} (h : f.Apart ⟨off, width⟩) (h1 : off ≤ off')
    (h2 : off' + width' ≤ off + width) : f.Apart ⟨off', width'⟩ := by
  unfold Apart at *
  dsimp only at *
  omega

theorem Apart.not_holds (h : f.Apart g) (hx : g.Holds x) : ¬ f.Holds x := by
  unfold Apart at h
  unfold Holds at *
  omega

theorem Holds.mirror (h : f.Holds x) : f.Holds (f.mirror x) := by
  unfold Holds Field.mirror at *
  omega

theorem Holds.mirror_mirror (h : f.Holds x) : f.mirror (f.mirror x) = x := by
  unfold Holds Field.mirror at *
  omega

end Field

variable {m : Nat → UInt8} {f g : Field} {fs gs : List Field} {x : Nat}

/-! ### One field -/

def swapField (m : Nat → UInt8) (f : Field) : Nat → UInt8 :=
  fun x => if f.Holds x then m (f.mirror x) else m x

theorem swapField_inside (h : f.Holds x) : swapField m f x = m (f.mirror x) := if_pos h

theorem swapField_outside (h : ¬ f.Holds x) : swapField m f x = m x := if_neg h

theorem swapField_swapField (m : Nat → UInt8) (f : Field) : swapField (swapField m f) f = m := by
  funext x
  by_cases h : f.Holds x
  · rw [swapField_inside h, swapField_inside h.mirror, h.mirror_mirror]
  · rw [swapField_outside h, swapField_outside h]

theorem swapField_comm (m : Nat → UInt8) (h : f.Apart g) :
    swapField (swapField m f) g = swapField (swapField m g) f := by
  funext x
  by_cases hf : f.Holds x
  · rw [swapField_outside (h.symm.not_holds hf), swapField_inside hf, swapField_inside hf,
      swapField_outside (h.symm.not_holds hf.mirror)]
  · rw [swapField_outside hf]
    by_cases hg : g.Holds x
    · rw [swapField_inside hg, swapField_inside hg, swapField_outside (h.not_holds hg.mirror)]
    · rw [swapField_outside hg, swapField_outside hg, swapField_outside hf]

/-! ### Lists of fields -/

def swapFields (m : Nat → UInt8) (fs : List Field) : Nat → UInt8 := fs.foldl swapField m

@[simp] theorem swapFields_nil (m : Nat → UInt8) : swapFields m [] = m := rfl

@[simp] theorem swapFields_cons (m : Nat → UInt8) (f : Field) (fs : List Field) :
    swapFields m (f :: fs) = swapFields (swapField m f) fs := rfl

theorem swapFields_append (m : Nat → UInt8) (fs gs : List Field) :
    swapFields m (fs ++ gs) = swapFields (swapFields m fs) gs := foldl_append

theorem swapFields_outside : ∀ {fs m}, (∀ f ∈ fs, ¬ f.Holds x) → swapFields m fs x = m x
  | [], _, _ => rfl
  | f :: fs, m, h => by
    rw [swapFields_cons, swapFields_outside fun g hg => h g (mem_cons_of_mem _ hg),
      swapField_outside (h f mem_cons_self)]

theorem swapFields_swapField : ∀ {fs} m, (∀ g ∈ fs, f.Apart g) →
    swapFields (swapField m f) fs = swapField (swapFields m fs) f
  | [], _, _ => rfl
  | g :: fs, m, h => by
    rw [swapFields_cons, swapField_comm m (h g mem_cons_self),
      swapFields_swapField _ fun g' hg => h g' (mem_cons_of_mem _ hg), swapFields_cons]

theorem swapFields_comm : ∀ {fs} m, (∀ f ∈ fs, ∀ g ∈ gs, f.Apart g) →
    swapFields (swapFields m fs) gs = swapFields (swapFields m gs) fs
  | [], _, _ => rfl
  | f :: fs, m, h => by
    rw [swapFields_cons, swapFields_comm _ fun f' hf => h f' (mem_cons_of_mem _ hf),
      swapFields_swapField m (h f mem_cons_self), swapFields_cons]

theorem swapFields_swapFields : ∀ {fs} m, fs.Pairwise Field.Apart →
    swapFields (swapFields m fs) fs = m
  | [], _, _ => rfl
  | f :: fs, m, h => by
    obtain ⟨hf, hfs⟩ := pairwise_cons.mp h
    rw [swapFields_cons, swapFields_cons, swapFields_swapField m hf, swapField_swapField,
      swapFields_swapFields m hfs]

/-! ### Reading -/

def leAt (m : Nat → UInt8) (off width : Nat) : Nat := leNat (bytesAt m off width)

def beAt (m : Nat → UInt8) (off width : Nat) : Nat := leNat (bytesAt m off width).reverse

variable {off width : Nat}

theorem bytesAt_swapFields (h : ∀ f ∈ fs, f.Apart ⟨off, width⟩) :
    bytesAt (swapFields m fs) off width = bytesAt m off width := by
  apply bytesAt_congr
  intro x h1 h2
  exact swapFields_outside fun f hf => (h f hf).not_holds ⟨h1, h2⟩

theorem beAt_swapFields (h : ∀ f ∈ fs, f.Apart ⟨off, width⟩) :
    beAt (swapFields m fs) off width = beAt m off width := by
  rw [beAt, bytesAt_swapFields h, beAt]

theorem leAt_swapFields (h : ∀ f ∈ fs, f.Apart ⟨off, width⟩) :
    leAt (swapFields m fs) off width = leAt m off width := by
  rw [leAt, bytesAt_swapFields h, leAt]

theorem bytesAt_swapField (m : Nat → UInt8) (off width : Nat) :
    bytesAt (swapField m ⟨off, width⟩) off width = (bytesAt m off width).reverse := by
  apply ext_getElem
  · simp
  · intro i h1 h2
    rw [bytesAt_length] at h1
    have hin : Field.Holds ⟨off, width⟩ (off + i) := ⟨Nat.le_add_right _ _, by simpa using h1⟩
    simp only [bytesAt, getElem_map, getElem_range, getElem_reverse,
      length_map, length_range, swapField_inside hin]
    congr 1
    unfold Field.mirror
    dsimp only
    omega

theorem swapField_eq_self_iff : swapField m f = m ↔
    (bytesAt m f.off f.width).reverse = bytesAt m f.off f.width := by
  rw [← bytesAt_swapField]
  constructor
  · intro h
    rw [h]
  · intro h
    funext x
    by_cases hx : f.Holds x
    · have hbyte := congrArg (fun l => l[x - f.off]?) h
      have hlt : x - f.off < f.width := by have := hx.2; have := hx.1; omega
      simpa [bytesAt, hlt, Nat.add_sub_cancel' hx.1] using hbyte
    · exact swapField_outside hx

theorem swapFields_eq_self_iff : ∀ {fs}, fs.Pairwise Field.Apart →
    (swapFields m fs = m ↔ ∀ f ∈ fs, (bytesAt m f.off f.width).reverse = bytesAt m f.off f.width)
  | [], _ => by simp
  | f :: fs, h => by
    obtain ⟨hf, hfs⟩ := pairwise_cons.mp h
    rw [forall_mem_cons, ← swapField_eq_self_iff, ← swapFields_eq_self_iff hfs, swapFields_cons]
    constructor
    · intro heq
      -- inside of the first field the others change nothing
      have hself : swapField m f = m := by
        funext x
        by_cases hx : f.Holds x
        · have hx' := congrFun heq x
          rwa [swapFields_outside fun g hg => (hf g hg).symm.not_holds hx] at hx'
        · exact swapField_outside hx
      rw [hself] at heq
      exact ⟨hself, heq⟩
    · rintro ⟨hself, heq⟩
      rw [hself, heq]

theorem beAt_swapFields_mem : ∀ {fs m}, fs.Pairwise Field.Apart →
    ⟨off, width⟩ ∈ fs → beAt (swapFields m fs) off width = leAt m off width
  | [], _, _, hf => nomatch hf
  | g :: fs, m, h, hf => by
    obtain ⟨hg, hfs⟩ := pairwise_cons.mp h
    rw [swapFields_cons]
    rcases mem_cons.mp hf with rfl | hf
    · rw [beAt_swapFields fun g hg' => (hg g hg').symm, beAt, bytesAt_swapField,
        reverse_reverse, leAt]
    · rw [beAt_swapFields_mem hfs hf]
      exact leAt_swapFields fun g' hg' => by rw [mem_singleton.mp hg']; exact hg _ hf

/-! ### Frames -/

/-- The stores agree on the offsets below `k`. -/
def AgreeBelow (k : Nat) (m m' : Nat → UInt8) : Prop := ∀ x, x < k → m' x = m x

variable {m' : Nat → UInt8} {k : Nat}

theorem AgreeBelow.mono {j : Nat} (h : AgreeBelow k m m') (hjk : j ≤ k) : AgreeBelow j m m' :=
  fun x hx => h x (Nat.lt_of_lt_of_le hx hjk)

theorem AgreeBelow.bytesAt (h : AgreeBelow k m m') (hk : off + width ≤ k) :
    bytesAt m' off width = bytesAt m off width :=
  bytesAt_congr fun x _ hx => h x (by omega)

theorem AgreeBelow.beAt (h : AgreeBelow k m m') (hk : off + width ≤ k) :
    beAt m' off width = beAt m off width := by
  rw [Ocfs2Tools.beAt, h.bytesAt hk, Ocfs2Tools.beAt]

theorem AgreeBelow.leAt (h : AgreeBelow k m m') (hk : off + width ≤ k) :
    leAt m' off width = leAt m off width := by
  rw [Ocfs2Tools.leAt, h.bytesAt hk, Ocfs2Tools.leAt]

theorem swapFields_agreeBelow (m : Nat → UInt8) (h : ∀ f ∈ fs, k ≤ f.off) :
    AgreeBelow k m (swapFields m fs) := by
  intro x hx
  refine swapFields_outside fun f hf hin => ?_
  have h1 := h f hf
  have h2 := hin.1
  omega

/-- An operation that is made on a condition is undone on the same condition, if it does not
    touch what the condition is about. -/
theorem leftInverse_ite {α : Type} {f g : α → α} {c : α → Bool} (hc : ∀ a, c (f a) = c a)
    (h : Function.LeftInverse g f) :
    Function.LeftInverse (fun a => if c a then g a else a) (fun a => if c a then f a else a) := by
  intro a
  dsimp only
  cases hca : c a with
  | true =>
    rw [if_pos rfl, hc, hca]
    exact h a
  | false => simp only [Bool.false_eq_true, if_false, hca]

/-! ### Arrays of records -/

section Array

variable (stop : Nat → Bool)

/-- A loop that swaps the fields of one record after the other, for as long as there are
    records and none of them stops it. What it decides on is read from the store. -/
def swapArray (count : (Nat → UInt8) → Nat) (fields : (Nat → UInt8) → Nat → List Field) :
    Nat → Nat → (Nat → UInt8) → (Nat → UInt8)
  | 0, _, m => m
  | n + 1, i, m =>
    if i < count m then
      if stop i then m else swapArray count fields n (i + 1) (swapFields m (fields m i))
    else m

def arrayFields (count : Nat) (fields : Nat → List Field) : Nat → Nat → List Field
  | 0, _ => []
  | n + 1, i =>
    if i < count ∧ stop i = false then fields i ++ arrayFields count fields n (i + 1) else []

/-- The records stand one behind the other from `base` on, the fields of each lie inside it,
    and what the loop decides on lies before them. -/
structure RecordLoop (base size : Nat) (count : (Nat → UInt8) → Nat)
    (fields : (Nat → UInt8) → Nat → List Field) : Prop where
  inside : ∀ m i, ∀ f ∈ fields m i, base + size * i ≤ f.off ∧
    f.off + f.width ≤ base + size * i + size
  apart : ∀ m i, (fields m i).Pairwise Field.Apart
  count_eq : ∀ {m m'}, AgreeBelow base m m' → count m' = count m
  fields_eq : ∀ {m m'}, AgreeBelow base m m' → fields m' = fields m

namespace RecordLoop

variable {stop} {base size : Nat} {count : (Nat → UInt8) → Nat}
  {fields : (Nat → UInt8) → Nat → List Field} (h : RecordLoop base size count fields)
include h

theorem fields_ge (m : Nat → UInt8) (c : Nat) : ∀ n i : Nat,
    ∀ f ∈ arrayFields stop c (fields m) n i, base + size * i ≤ f.off
  | 0, _, _, hf => nomatch hf
  | n + 1, i, f, hf => by
    rw [arrayFields] at hf
    split at hf
    · rcases mem_append.mp hf with hf | hf
      · exact (h.inside m i f hf).1
      · have := fields_ge m c n (i + 1) f hf
        rw [Nat.mul_succ] at this
        omega
    · cases hf

theorem fields_apart (m : Nat → UInt8) (c : Nat) :
    ∀ n i : Nat, (arrayFields stop c (fields m) n i).Pairwise Field.Apart
  | 0, _ => List.Pairwise.nil
  | n + 1, i => by
    rw [arrayFields]
    split
    · refine pairwise_append.mpr ⟨h.apart m i, fields_apart m c n (i + 1), ?_⟩
      intro f hf g hg
      have h1 := (h.inside m i f hf).2
      have h2 := h.fields_ge m c n (i + 1) g hg
      rw [Nat.mul_succ] at h2
      exact .inl (by omega)
    · exact List.Pairwise.nil

theorem swapArray_eq (m₀ : Nat → UInt8) :
    ∀ n i m, AgreeBelow base m₀ m → swapArray stop count fields n i m =
      swapFields m (arrayFields stop (count m₀) (fields m₀) n i)
  | 0, _, _, _ => rfl
  | n + 1, i, m, hm => by
    rw [swapArray, arrayFields, h.count_eq hm]
    split
    · next hi =>
      cases hs : stop i with
      | true =>
        rw [if_pos rfl, if_neg (by simp)]
        rfl
      | false =>
        rw [if_neg (by decide), if_pos ⟨hi, rfl⟩, h.fields_eq hm, swapFields_append]
        apply swapArray_eq m₀ n (i + 1)
        -- the record lies behind what is decided on
        intro x hx
        rw [← hm x hx]
        refine swapFields_agreeBelow m (fun f hf => ?_) x hx
        exact Nat.le_trans (Nat.le_add_right _ _) (h.inside m₀ i f hf).1
    · next hi =>
      rw [if_neg fun h => hi h.1]
      rfl

theorem agreeBelow (n : Nat) (m : Nat → UInt8) :
    AgreeBelow base m (swapArray stop count fields n 0 m) := by
  rw [h.swapArray_eq m n 0 m fun _ _ => rfl]
  exact swapFields_agreeBelow m fun f hf => by simpa using h.fields_ge m _ n 0 f hf

theorem involutive (n : Nat) : Function.Involutive (swapArray stop count fields n 0) := by
  intro m
  rw [h.swapArray_eq m n 0 _ (h.agreeBelow n m), h.swapArray_eq m n 0 m fun _ _ => rfl,
    swapFields_swapFields m (h.fields_apart m _ n 0)]

end RecordLoop

end Array

end Ocfs2Tools
