import Mathlib

/-!
# `qsort` with a comparison by a key

The C library sorts an array in place and leaves elements with equal keys in any order.
`Qsort` is any function that does so; what is proved about it holds whatever order it
leaves them in. `Qsort.insertion` is one such function, to run things with.
-/

namespace Ocfs2Tools

variable {α : Type}

/-- Sorting by a key: the elements stay the same and their keys ascend. -/
structure Qsort (α : Type) where
  run : (α → Nat) → List α → List α
  perm : ∀ key l, (run key l).Perm l
  sorted : ∀ key l, (run key l).Pairwise fun a b => key a ≤ key b

theorem Qsort.mem_run (q : Qsort α) {key : α → Nat} {l : List α} {a : α} :
    a ∈ q.run key l ↔ a ∈ l :=
  (q.perm key l).mem_iff

def Qsort.insertion (α : Type) : Qsort α where
  run := fun key l => l.insertionSort fun a b => key a ≤ key b
  perm := fun key l => List.perm_insertionSort _ l
  sorted := fun key l => by
    have : Std.Total fun a b : α => key a ≤ key b := ⟨fun a b => le_total _ _⟩
    have : IsTrans α fun a b : α => key a ≤ key b := ⟨fun _ _ _ h h' => le_trans h h'⟩
    exact List.pairwise_insertionSort _ l

end Ocfs2Tools
