import Mathlib

/-!
# Following a pointer upwards

`up : α → Option α` gives each element at most one element above it. `Above up a b`
says that following `up` from `a` comes by `b`; `OnCycle` that it comes back; `Ends`
that it comes by an element of a given set. Since `up` is a function, the elements
above `a` form a single chain, and two chains that meet continue together.
-/

namespace Ocfs2Tools.Chain

open Relation

variable {α : Type}

def Step (up : α → Option α) (a b : α) : Prop := up a = some b

/-- `b` lies on the way up from `a`, `a` included. -/
abbrev Above (up : α → Option α) : α → α → Prop := ReflTransGen (Step up)

/-- The way up from `a` comes back to `a`. -/
def OnCycle (up : α → Option α) (a : α) : Prop := TransGen (Step up) a a

/-- The way up from `a` comes by an element of `T`. -/
def Ends (up : α → Option α) (T : α → Prop) (a : α) : Prop := ∃ b, Above up a b ∧ T b

variable {up up' : α → Option α} {T : α → Prop} {a b c : α}

theorem step_unique (up : α → Option α) : Relator.RightUnique (Step up) := by
  intro a b c hb hc
  exact Option.some.inj (hb.symm.trans hc)

theorem above_total (hb : Above up a b) (hc : Above up a c) : Above up b c ∨ Above up c b :=
  hb.total_of_right_unique (step_unique up) hc

theorem Ends.step (h : Ends up T b) (hab : up a = some b) : Ends up T a := by
  obtain ⟨c, hbc, hc⟩ := h
  exact ⟨c, hbc.head hab, hc⟩

variable {V : α → Prop}

theorem above_mem (hV : ∀ a, V a → ∃ b, V b ∧ up a = some b) (ha : V a) (hab : Above up a b) :
    V b := by
  induction hab with
  | refl => exact ha
  | tail _ hstep ih =>
    obtain ⟨c, hc, hup⟩ := hV _ ih
    exact step_unique up hup hstep ▸ hc

theorem not_ends_of_closed (hV : ∀ a, V a → ∃ b, V b ∧ up a = some b) (ha : V a)
    (hT : ∀ a, V a → ¬ T a) : ¬ Ends up T a := by
  rintro ⟨b, hab, hb⟩
  exact hT b (above_mem hV ha hab) hb

/-! ### Cycles -/

theorem OnCycle.above (h : OnCycle up a) (hab : Above up a b) : OnCycle up b ∧ Above up b a := by
  induction hab with
  | refl => exact ⟨h, ReflTransGen.refl⟩
  | tail _ hstep ih =>
    obtain ⟨hcycle, hback⟩ := ih
    obtain ⟨d, hd, hdc⟩ := TransGen.head'_iff.mp hcycle
    have hd' := step_unique up hd hstep
    subst hd'
    exact ⟨TransGen.tail' hdc hd, hdc.trans hback⟩

theorem OnCycle.up_some (h : OnCycle up a) : ∃ b, up a = some b ∧ Above up b a := by
  obtain ⟨b, hb, hba⟩ := TransGen.head'_iff.mp h
  exact ⟨b, hb, hba⟩

theorem OnCycle.not_ends (h : OnCycle up a) (hT : ∀ b, T b → up b = none) : ¬ Ends up T a := by
  rintro ⟨b, hab, hb⟩
  obtain ⟨c, hc, _⟩ := (h.above hab).1.up_some
  rw [hT b hb] at hc
  cases hc

/-- Following `up`, but standing still where it ends. -/
def next (up : α → Option α) (a : α) : α := (up a).getD a

theorem next_of_step (h : up a = some b) : next up a = b := by
  unfold next
  rw [h, Option.getD_some]

theorem iterate_of_transGen (h : TransGen (Step up) a b) : ∃ n, (next up)^[n + 1] a = b := by
  induction h with
  | single hstep => exact ⟨0, next_of_step hstep⟩
  | tail _ hstep ih =>
    obtain ⟨n, hn⟩ := ih
    refine ⟨n + 1, ?_⟩
    rw [Function.iterate_succ_apply', hn]
    exact next_of_step hstep

theorem OnCycle.mem_periodicPts (h : OnCycle up a) : a ∈ Function.periodicPts (next up) := by
  obtain ⟨n, hn⟩ := iterate_of_transGen h
  exact ⟨n + 1, Nat.succ_pos n, hn⟩

theorem OnCycle.pred_unique (ha : OnCycle up a) (hb : OnCycle up b) (hac : up a = some c)
    (hbc : up b = some c) : a = b := by
  apply (Function.bijOn_periodicPts (next up)).injOn ha.mem_periodicPts hb.mem_periodicPts
  rw [next_of_step hac, next_of_step hbc]

end Ocfs2Tools.Chain
