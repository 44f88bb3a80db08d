import Mathlib

/-!
# Folds that may stop

`foldStop f b as` runs `f` along a list until it says to stop, and tells whether it did:
what a loop with a `break` does to its accumulator.
-/

namespace Ocfs2Tools

open List

variable {α β γ : Type}

def foldStop (f : β → α → Bool × β) : β → List α → Bool × β
  | b, [] => (false, b)
  | b, a :: as =>
    match f b a with
    | (true, b') => (true, b')
    | (false, b') => foldStop f b' as

variable {f : β → α → Bool × β} {b b' : β} {a : α}

theorem foldStop_cons_stop (h : f b a = (true, b')) (as : List α) :
    foldStop f b (a :: as) = (true, b') := by
  rw [foldStop, h]

theorem foldStop_cons_go (h : f b a = (false, b')) (as : List α) :
    foldStop f b (a :: as) = foldStop f b' as := by
  rw [foldStop, h]

theorem foldStop_singleton (f : β → α → Bool × β) (b : β) (a : α) : foldStop f b [a] = f b a := by
  match h : f b a with
  | (true, b') => exact foldStop_cons_stop h []
  | (false, b') => exact foldStop_cons_go h []

theorem foldStop_append_stop : ∀ {as b b'},
    foldStop f b as = (true, b') → ∀ bs, foldStop f b (as ++ bs) = (true, b')
  | a :: as, b, b', h, bs => by
    match hf : f b a with
    | (true, c) =>
      rw [foldStop_cons_stop hf] at h
      rw [cons_append, foldStop_cons_stop hf, h]
    | (false, c) =>
      rw [foldStop_cons_go hf] at h
      rw [cons_append, foldStop_cons_go hf, foldStop_append_stop h]

theorem foldStop_append_go : ∀ {as b b'},
    foldStop f b as = (false, b') → ∀ bs, foldStop f b (as ++ bs) = foldStop f b' bs
  | [], _, _, h, _ => by cases h; rfl
  | a :: as, b, b', h, bs => by
    match hf : f b a with
    | (true, c) =>
      rw [foldStop_cons_stop hf] at h
      cases h
    | (false, c) =>
      rw [foldStop_cons_go hf] at h
      rw [cons_append, foldStop_cons_go hf, foldStop_append_go h]

theorem foldStop_flatMap (f : β → γ → Bool × β) (g : α → List γ) : ∀ as b,
    foldStop (fun b a => foldStop f b (g a)) b as = foldStop f b (as.flatMap g)
  | [], _ => rfl
  | a :: as, b => by
    rw [flatMap_cons]
    match h : foldStop f b (g a) with
    | (true, b') =>
      rw [foldStop_append_stop h]
      exact foldStop_cons_stop (f := fun b a => foldStop f b (g a)) h as
    | (false, b') =>
      rw [foldStop_append_go h, ← foldStop_flatMap f g as b']
      exact foldStop_cons_go (f := fun b a => foldStop f b (g a)) h as

theorem foldStop_map (f : β → γ → Bool × β) (g : α → γ) : ∀ as b,
    foldStop f b (as.map g) = foldStop (fun b a => f b (g a)) b as
  | [], _ => rfl
  | a :: as, b => by
    match h : f b (g a) with
    | (true, b') =>
      rw [map_cons, foldStop_cons_stop h]
      exact (foldStop_cons_stop (f := fun b a => f b (g a)) h as).symm
    | (false, b') =>
      rw [map_cons, foldStop_cons_go h, foldStop_map f g as b']
      exact (foldStop_cons_go (f := fun b a => f b (g a)) h as).symm

end Ocfs2Tools
