import Mathlib

/-!
# Lists of intervals

An extent list is, read as data, a list of intervals `[start a, start a + len a)`.
Two shapes occur. A list is *spaced* between two bounds when its intervals are
nonempty, ordered and disjoint, with gaps allowed; it is *tiled* when every
interval starts where the one before it ends. Nothing here knows what the
intervals stand for: `start` and `len` are arbitrary functions on an arbitrary
type.
-/

namespace Ocfs2Tools

open List

section Interval

variable {α : Type} (start len : α → Nat)

/-- `v` lies in the interval of `a`. -/
def Covers (a : α) (v : Nat) : Prop := start a ≤ v ∧ v < start a + len a

instance (a : α) (v : Nat) : Decidable (Covers start len a v) :=
  inferInstanceAs (Decidable (_ ∧ _))

/-- Nonempty, ordered, pairwise disjoint intervals inside `[lo, hi)`. -/
def Spaced : Nat → List α → Nat → Prop
  | lo, [], hi => lo ≤ hi
  | lo, a :: as, hi => lo ≤ start a ∧ 0 < len a ∧ Spaced (start a + len a) as hi

/-- Nonempty intervals that start at `lo` and abut, the last one ending at or before `hi`. -/
def Tiled : Nat → List α → Nat → Prop
  | lo, [], hi => lo ≤ hi
  | lo, a :: as, hi => start a = lo ∧ 0 < len a ∧ Tiled (lo + len a) as hi

instance decidableSpaced : ∀ lo as hi, Decidable (Spaced start len lo as hi)
  | lo, [], hi => inferInstanceAs (Decidable (lo ≤ hi))
  | lo, a :: as, hi =>
    have := decidableSpaced (start a + len a) as hi
    inferInstanceAs (Decidable (lo ≤ start a ∧ 0 < len a ∧ _))

instance decidableTiled : ∀ lo as hi, Decidable (Tiled start len lo as hi)
  | lo, [], hi => inferInstanceAs (Decidable (lo ≤ hi))
  | lo, a :: as, hi =>
    have := decidableTiled (lo + len a) as hi
    inferInstanceAs (Decidable (start a = lo ∧ 0 < len a ∧ _))

variable {start len}

theorem Tiled.spaced : ∀ {as lo hi}, Tiled start len lo as hi → Spaced start len lo as hi
  | [], _, _, h => h
  | a :: as, lo, hi, h => by
    obtain ⟨hs, hl, ht⟩ := h
    refine ⟨Nat.le_of_eq hs.symm, hl, ?_⟩
    rw [hs]
    exact ht.spaced

theorem Spaced.le : ∀ {as lo hi}, Spaced start len lo as hi → lo ≤ hi
  | [], _, _, h => h
  | a :: as, lo, hi, h => by
    obtain ⟨h1, h2, h3⟩ := h
    have := h3.le
    omega

theorem Spaced.weaken : ∀ {as lo lo' hi hi'},
    Spaced start len lo as hi → lo' ≤ lo → hi ≤ hi' → Spaced start len lo' as hi'
  | [], _, _, _, _, h, hl, hh => by simp only [Spaced] at *; omega
  | _ :: _, _, _, _, _, h, hl, hh => ⟨Nat.le_trans hl h.1, h.2.1, h.2.2.weaken (Nat.le_refl _) hh⟩

theorem Spaced.mem_bounds : ∀ {as lo hi}, Spaced start len lo as hi →
    ∀ a ∈ as, lo ≤ start a ∧ 0 < len a ∧ start a + len a ≤ hi
  | [], _, _, _, a, ha => by cases ha
  | b :: bs, lo, hi, h, a, ha => by
    obtain ⟨h1, h2, h3⟩ := h
    rcases mem_cons.mp ha with rfl | ha
    · exact ⟨h1, h2, h3.le⟩
    · have := h3.mem_bounds a ha
      omega

theorem Spaced.sum_le : ∀ {as lo hi}, Spaced start len lo as hi → lo + (as.map len).sum ≤ hi
  | [], _, _, h => h
  | _ :: as, _, _, h => by
    have h1 := h.2.2.sum_le
    have h2 := h.1
    rw [map_cons, sum_cons]
    omega

theorem spaced_append : ∀ {as bs lo hi}, Spaced start len lo (as ++ bs) hi ↔ ∃ m,
    Spaced start len lo as m ∧ Spaced start len m bs hi
  | [], bs, lo, hi => by
    constructor
    · intro h
      exact ⟨lo, Nat.le_refl _, h⟩
    · rintro ⟨m, hm, h⟩
      exact h.weaken hm (Nat.le_refl _)
  | a :: as, bs, lo, hi => by
    simp only [cons_append, Spaced, @spaced_append as]
    constructor
    · rintro ⟨h1, h2, m, h3, h4⟩
      exact ⟨m, ⟨h1, h2, h3⟩, h4⟩
    · rintro ⟨m, ⟨h1, h2, h3⟩, h4⟩
      exact ⟨h1, h2, m, h3, h4⟩

/-- A value that no interval of a spaced list covers lies behind all of them, or the
    first interval behind it splits the list. -/
theorem Spaced.split_at : ∀ {as lo hi v}, Spaced start len lo as hi →
    (∀ a ∈ as, ¬ Covers start len a v) → (∀ a ∈ as, start a + len a ≤ v) ∨
      ∃ pre a post, as = pre ++ a :: post ∧ (∀ x ∈ pre, start x + len x ≤ v) ∧ v < start a
  | [], _, _, _, _, _ => .inl nofun
  | a :: as, lo, hi, v, h, hn => by
    by_cases hv : v < start a
    · exact .inr ⟨[], a, as, rfl, nofun, hv⟩
    · have ha : start a + len a ≤ v := by
        have := hn a (by simp)
        unfold Covers at this
        omega
      rcases h.2.2.split_at fun x hx => hn x (mem_cons_of_mem _ hx) with hall | hsplit
      · exact .inl (forall_mem_cons.mpr ⟨ha, hall⟩)
      · obtain ⟨pre, b, post, rfl, hpre, hb⟩ := hsplit
        exact .inr ⟨a :: pre, b, post, rfl, forall_mem_cons.mpr ⟨ha, hpre⟩, hb⟩

/-- Around `v` a spaced list falls into the intervals before it, at most one that `v`
    lies inside, and those behind it. -/
theorem Spaced.cut (v : Nat) : ∀ {as lo hi}, Spaced start len lo as hi →
    ∃ pre mid post, as = pre ++ (mid ++ post) ∧ (∀ a ∈ pre, start a + len a ≤ v) ∧
      (mid = [] ∨ ∃ a, mid = [a] ∧ start a < v ∧ v < start a + len a) ∧ ∀ a ∈ post, v ≤ start a
  | [], _, _, _ => ⟨[], [], [], rfl, by simp, .inl rfl, by simp⟩
  | a :: as, lo, hi, h => by
    obtain ⟨h1, h2, h3⟩ := h
    have hafter : v ≤ start a + len a → ∀ b ∈ as, v ≤ start b := by
      intro hv b hb
      have := (h3.mem_bounds b hb).1
      omega
    by_cases hpre : start a + len a ≤ v
    · obtain ⟨pre, mid, post, rfl, hp, hm, hq⟩ := Spaced.cut v h3
      exact ⟨a :: pre, mid, post, rfl, forall_mem_cons.mpr ⟨hpre, hp⟩, hm, hq⟩
    · by_cases hmid : start a < v
      · exact ⟨[], [a], as, rfl, by simp, .inr ⟨a, rfl, hmid, by omega⟩, hafter (by omega)⟩
      · exact ⟨[], [], a :: as, rfl, by simp, .inl rfl,
          forall_mem_cons.mpr ⟨by omega, hafter (by omega)⟩⟩

theorem Spaced.restrict : ∀ {as lo hi v}, Spaced start len lo as hi →
    (∀ a ∈ as, start a + len a ≤ v) → lo ≤ v → Spaced start len lo as v
  | [], _, _, _, _, _, hv => hv
  | a :: _, _, _, _, h, hb, _ =>
    ⟨h.1, h.2.1, h.2.2.restrict (fun x hx => hb x (mem_cons_of_mem _ hx)) (hb a mem_cons_self)⟩

theorem Spaced.raise : ∀ {as lo hi v}, Spaced start len lo as hi → (∀ a ∈ as, v ≤ start a) →
    v ≤ hi → Spaced start len v as hi
  | [], _, _, _, _, _, hv => hv
  | a :: _, _, _, _, h, hb, _ => ⟨hb a mem_cons_self, h.2⟩

theorem Tiled.restrict : ∀ {as lo hi v}, Tiled start len lo as hi →
    (∀ a ∈ as, start a + len a ≤ v) → lo ≤ v → Tiled start len lo as v
  | [], _, _, _, _, _, hv => hv
  | a :: _, lo, _, v, h, hb, _ => by
    obtain ⟨h1, h2, h3⟩ := h
    refine ⟨h1, h2, h3.restrict (fun x hx => hb x (mem_cons_of_mem _ hx)) ?_⟩
    have := hb a (mem_cons_self ..)
    omega

theorem tiled_append : ∀ {as bs lo hi},
    Tiled start len lo (as ++ bs) hi ↔ Tiled start len lo as (lo + (as.map len).sum) ∧
        Tiled start len (lo + (as.map len).sum) bs hi
  | [], bs, lo, hi => by simp [Tiled]
  | a :: as, bs, lo, hi => by
    have hsum : lo + ((a :: as).map len).sum = (lo + len a) + (as.map len).sum := by
      simp only [map_cons, sum_cons]
      omega
    simp only [cons_append, Tiled, @tiled_append as, hsum]
    exact ⟨fun ⟨h1, h2, h3, h4⟩ => ⟨⟨h1, h2, h3⟩, h4⟩, fun ⟨⟨h1, h2, h3⟩, h4⟩ => ⟨h1, h2, h3, h4⟩⟩

/-- The first interval of a tiled list that covers `v`, or else the last one: it
    starts at or before `v`, and only the last one may end before `v` does. -/
theorem tiled_findIdx : ∀ {as lo hi v}, Tiled start len lo as hi → as ≠ [] → lo ≤ v →
    ∃ pre a post, as = pre ++ a :: post ∧
      pre.length = as.dropLast.findIdx (fun a => decide (Covers start len a v)) ∧
      start a ≤ v ∧ (post = [] ∨ v < start a + len a)
  | [], _, _, _, _, hne, _ => absurd rfl hne
  | [a], lo, hi, v, h, _, hv => ⟨[], a, [], rfl, rfl, by rw [h.1]; exact hv, .inl rfl⟩
  | a :: b :: bs, lo, hi, v, h, _, hv => by
    obtain ⟨hs, hl, ht⟩ := h
    by_cases hc : v < start a + len a
    · refine ⟨[], a, b :: bs, rfl, ?_, by omega, .inr hc⟩
      have hcov : Covers start len a v := ⟨by omega, hc⟩
      simp [findIdx_cons, hcov]
    · obtain ⟨pre, c, post, heq, hlen, hc1, hc2⟩ :=
        tiled_findIdx ht (by simp) (by omega : lo + len a ≤ v)
      refine ⟨a :: pre, c, post, by rw [heq]; rfl, ?_, hc1, hc2⟩
      have hcov : ¬ Covers start len a v := fun h => hc h.2
      simp [findIdx_cons, hcov, hlen]

end Interval

end Ocfs2Tools
