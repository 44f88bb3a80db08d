import Mathlib

/-!
# Walking a chain of records

A store of records with length fields is walked from one offset to the next for as long as
a check of the record at hand succeeds. `walk` returns the offsets passed and the one where
it ends: the end of the store, or the first record that fails the check. Two walks with
different checks agree up to where the stricter one ends.
-/

namespace Ocfs2Tools

section ChainWalk

variable (ok : Nat → Bool) (len : Nat → Nat) (stop : Nat) {a : Nat}

def walkFuel : Nat → Nat → List Nat × Nat
  | 0, a => ([], a)
  | n + 1, a =>
    if a < stop ∧ ok a = true then (a :: (walkFuel n (a + len a)).1, (walkFuel n (a + len a)).2)
    else ([], a)

/-- The offsets passed from `a` on, and where the walk ends. -/
def walk (a : Nat) : List Nat × Nat := walkFuel ok len stop (stop - a) a

variable {ok len stop} {ok' : Nat → Bool} {stop' : Nat}

theorem walkFuel_eq (hpos : ∀ a, ok a = true → 0 < len a) : ∀ n m a, stop - a ≤ n →
    stop - a ≤ m → walkFuel ok len stop n a = walkFuel ok len stop m a
  | 0, 0, _, _, _ => rfl
  | 0, m + 1, a, hn, _ => by
    rw [walkFuel, walkFuel, if_neg (by omega)]
  | n + 1, 0, a, _, hm => by
    rw [walkFuel, walkFuel, if_neg (by omega)]
  | n + 1, m + 1, a, hn, hm => by
    rw [walkFuel, walkFuel]
    by_cases h : a < stop ∧ ok a = true
    · have := hpos a h.2
      rw [if_pos h, if_pos h, walkFuel_eq hpos n m (a + len a) (by omega) (by omega)]
    · rw [if_neg h, if_neg h]

theorem walk_stop (h : ¬ (a < stop ∧ ok a = true)) : walk ok len stop a = ([], a) := by
  unfold walk
  cases stop - a with
  | zero => rfl
  | succ n => rw [walkFuel, if_neg h]

theorem walk_step (hpos : ∀ a, ok a = true → 0 < len a) (ha : a < stop) (hok : ok a = true) :
    walk ok len stop a =
      (a :: (walk ok len stop (a + len a)).1, (walk ok len stop (a + len a)).2) := by
  have := hpos a hok
  obtain ⟨n, hn⟩ : ∃ n, stop - a = n + 1 := ⟨stop - a - 1, by omega⟩
  unfold walk
  rw [hn, walkFuel, if_pos ⟨ha, hok⟩,
    walkFuel_eq hpos n (stop - (a + len a)) (a + len a) (by omega) (Nat.le_refl _)]

variable (ok len stop) in
theorem walk_induction (hpos : ∀ a, ok a = true → 0 < len a) {P : Nat → Prop}
    (done : ∀ a, ¬ (a < stop ∧ ok a = true) → P a)
    (step : ∀ a, a < stop → ok a = true → P (a + len a) → P a) (a : Nat) : P a := by
  induction h : stop - a using Nat.strongRecOn generalizing a with
  | _ n ih =>
    by_cases hok : a < stop ∧ ok a = true
    · have := hpos a hok.2
      exact step a hok.1 hok.2 (ih (stop - (a + len a)) (by omega) (a + len a) rfl)
    · exact done a hok

theorem walk_append (hpos : ∀ a, ok' a = true → 0 < len a)
    (hok : ∀ a, ok a = true → ok' a = true) (hstop : stop ≤ stop') (a : Nat) :
    walk ok' len stop' a = ((walk ok len stop a).1 ++ (walk ok' len stop' (walk ok len stop a).2).1,
        (walk ok' len stop' (walk ok len stop a).2).2) := by
  have hpos' : ∀ a, ok a = true → 0 < len a := fun a h => hpos a (hok a h)
  induction a using walk_induction ok len stop hpos' with
  | done a h =>
    rw [walk_stop h]
    rfl
  | step a ha hoka ih =>
    rw [walk_step hpos (Nat.lt_of_lt_of_le ha hstop) (hok a hoka), walk_step hpos' ha hoka, ih]
    rfl

theorem walk_le (hpos : ∀ a, ok a = true → 0 < len a) (hin : ∀ a, ok a = true → a + len a ≤ stop)
    (ha : a ≤ stop) : (walk ok len stop a).2 ≤ stop := by
  induction a using walk_induction ok len stop hpos with
  | done a h =>
    rw [walk_stop h]
    exact ha
  | step a hlt hok ih =>
    rw [walk_step hpos hlt hok]
    exact ih (hin a hok)

theorem walk_mem_lt (hpos : ∀ a, ok a = true → 0 < len a) (a : Nat) :
    ∀ x ∈ (walk ok len stop a).1, a ≤ x ∧ x < stop ∧ ok x = true := by
  induction a using walk_induction ok len stop hpos with
  | done a h =>
    rw [walk_stop h]
    simp
  | step a ha hok ih =>
    rw [walk_step hpos ha hok]
    intro x hx
    rcases List.mem_cons.mp hx with rfl | hx
    · exact ⟨Nat.le_refl _, ha, hok⟩
    · have := ih x hx
      exact ⟨by omega, this.2⟩

end ChainWalk

end Ocfs2Tools
