import Mathlib

/-!
# Lists kept in buckets

`l.flatMap f` is what is in the buckets `f a`, for the names `a` in `l`. The lemmas say what
becomes of it when one bucket gets one more element, when a list is dealt out to the
buckets, and when every bucket is cut in two.
-/

namespace Ocfs2Tools

open List

variable {α β : Type} {l : List α}

theorem perm_flatMap_update {f g : α → List β} {a : α} {e : β} (hl : l.Nodup) (ha : a ∈ l)
    (hga : (g a).Perm (e :: f a)) (hother : ∀ b ∈ l, b ≠ a → g b = f b) :
    (l.flatMap g).Perm (e :: l.flatMap f) := by
  induction l with
  | nil => cases ha
  | cons b rest ih =>
    obtain ⟨hnot, hrest⟩ := nodup_cons.mp hl
    rw [flatMap_cons]
    rcases mem_cons.mp ha with rfl | ha
    · have hsame : rest.flatMap g = rest.flatMap f := by
        apply flatMap_congr
        intro b hb
        exact hother b (mem_cons_of_mem a hb) fun heq => hnot (heq ▸ hb)
      rw [hsame]
      exact hga.append_right _
    · have hb : g b = f b := hother b mem_cons_self fun heq => hnot (heq ▸ ha)
      have hperm := ih hrest ha fun c hc => hother c (mem_cons_of_mem b hc)
      rw [hb]
      exact (hperm.append_left (f b)).trans perm_middle

theorem perm_flatMap_filter [DecidableEq α] (hl : l.Nodup) (key : β → α) {es}
    (hall : (∀ e ∈ es, key e ∈ l)) : (l.flatMap fun a => es.filter fun e => key e = a).Perm es := by
  induction es with
  | nil =>
    rw [flatMap_eq_nil_iff.mpr]
    intro a _
    rfl
  | cons e rest ih =>
    have hrest := ih fun x hx => hall x (mem_cons_of_mem e hx)
    refine (perm_flatMap_update hl (hall e mem_cons_self) ?_ ?_).trans (hrest.cons e)
    · rw [filter_cons_of_pos (by simp)]
    · intro b _ hne
      exact filter_cons_of_neg (by simpa using fun heq => hne heq.symm)

theorem perm_flatMap_split (l : List α) (f : α → List β) (p : β → Bool) :
    ((l.flatMap fun a => (f a).filter p) ++ l.flatMap fun a => (f a).filter fun e => !p e).Perm
      (l.flatMap f) :=
  (flatMap_append_perm l _ _).trans (.flatMap_left l fun a _ => filter_append_perm p (f a))

end Ocfs2Tools
