import Ocfs2Tools.Device

/-!
# Refcount records and refcount blocks

The structures of `ocfs2_fs.h` that `refcount.c` works on. A refcount record gives a run
of physical clusters its reference count. The records of a block are ordered by their
64-bit position, but the btree over the leaf blocks is keyed by its low 32 bits.
-/

namespace Ocfs2Tools.Refcount

/-- `struct ocfs2_refcount_rec`. -/
structure RefcountRec where
  rCpos : Nat
  rClusters : Nat
  rRefcount : Nat
deriving DecidableEq, Repr

instance : Inhabited RefcountRec := ⟨⟨0, 0, 0⟩⟩

/-- `ocfs2_get_ref_rec_low_cpos`. -/
def RefcountRec.lowCpos (r : RefcountRec) : Nat := r.rCpos % 2 ^ 32

def RefcountRec.stop (r : RefcountRec) : Nat := r.rCpos + r.rClusters

/-- The record covers the physical cluster `c`. -/
def RefcountRec.Has (r : RefcountRec) (c : Nat) : Prop := r.rCpos ≤ c ∧ c < r.stop

instance (r : RefcountRec) (c : Nat) : Decidable (r.Has c) :=
  inferInstanceAs (Decidable (r.rCpos ≤ c ∧ c < r.stop))

/-- `struct ocfs2_refcount_list`: `recs` are the `rl_used` records in use. -/
structure RefcountList where
  rlCount : Nat
  recs : List RefcountRec
deriving DecidableEq, Repr

/-- A list of records as a refcount block holds it: nonempty and of 32-bit lengths,
    ordered and disjoint. -/
structure RecsOk (recs : List RefcountRec) : Prop where
  pos : ∀ r ∈ recs, 0 < r.rClusters
  fits : ∀ r ∈ recs, r.rClusters < 2 ^ 32
  ordered : recs.Pairwise fun a b => a.stop ≤ b.rCpos

instance (recs : List RefcountRec) : Decidable (RecsOk recs) :=
  decidable_of_iff ((∀ r ∈ recs, 0 < r.rClusters) ∧ (∀ r ∈ recs, r.rClusters < 2 ^ 32) ∧
      recs.Pairwise fun a b => a.stop ≤ b.rCpos)
    ⟨fun h => ⟨h.1, h.2.1, h.2.2⟩, fun h => ⟨h.1, h.2, h.3⟩⟩

/-- `ocfs2_refcount_recs_per_rb`: the records start 144 bytes into the block. -/
def refcountRecsPerRb (fs : Filesys) : Nat := (fs.fsBlocksize - 144) / 16

/-- The fields of a leaf `struct ocfs2_refcount_block` that its division touches. -/
structure LeafBlock where
  rfCpos : Nat
  rfRecords : RefcountList
deriving DecidableEq, Repr

end Ocfs2Tools.Refcount
