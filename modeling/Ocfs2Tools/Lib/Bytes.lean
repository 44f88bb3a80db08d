import Mathlib

/-!
# A byte store

A store of bytes is a function from offsets. `bytesAt` reads a run of bytes and
`writeBytes` puts a list of bytes at an offset; the lemmas say what a read gives
after a write and how reads of adjacent runs fit together. The last part is about
little-endian numbers.
-/

namespace Ocfs2Tools

open List

variable {n x dst src : Nat}

def bytesAt (store : Nat → UInt8) (loc n : Nat) : List UInt8 :=
  (List.range n).map fun i => store (loc + i)

def writeBytes (store : Nat → UInt8) (loc : Nat) (data : List UInt8) : Nat → UInt8 :=
  fun x => if loc ≤ x then data.getD (x - loc) (store x) else store x

variable {store : Nat → UInt8} {loc : Nat} {data : List UInt8}

@[simp] theorem bytesAt_length (store : Nat → UInt8) (loc n : Nat) :
    (bytesAt store loc n).length = n := by
  simp [bytesAt]

@[simp] theorem bytesAt_zero (store : Nat → UInt8) (loc : Nat) : bytesAt store loc 0 = [] := rfl

theorem bytesAt_getElem? (store : Nat → UInt8) (loc n i : Nat) (h : i < n) :
    (bytesAt store loc n)[i]? = some (store (loc + i)) := by
  simp [bytesAt, h]

theorem bytesAt_append (store : Nat → UInt8) (loc m n : Nat) :
    bytesAt store loc (m + n) = bytesAt store loc m ++ bytesAt store (loc + m) n := by
  unfold bytesAt
  rw [range_add]
  simp [Nat.add_assoc]

theorem bytesAt_split (store : Nat → UInt8) (loc : Nat) {r : Nat} (h : r ≤ n) :
    bytesAt store loc n = bytesAt store loc r ++ bytesAt store (loc + r) (n - r) := by
  rw [← bytesAt_append, Nat.add_sub_cancel' h]

theorem bytesAt_congr {store' : Nat → UInt8} (h : ∀ x, loc ≤ x → x < loc + n → store' x = store x) :
    bytesAt store' loc n = bytesAt store loc n := by
  apply map_congr_left
  intro i hi
  rw [mem_range] at hi
  exact h (loc + i) (Nat.le_add_right _ _) (by omega)

theorem writeBytes_outside (h : x < loc ∨ loc + data.length ≤ x) :
    writeBytes store loc data x = store x := by
  unfold writeBytes
  split
  · rw [getD_eq_default]
    omega
  · rfl

theorem writeBytes_inside {i : Nat} (h : i < data.length) :
    writeBytes store loc data (loc + i) = data[i] := by
  unfold writeBytes
  rw [if_pos (Nat.le_add_right _ _), Nat.add_sub_cancel_left]
  exact getD_eq_getElem data _ h

theorem bytesAt_writeBytes_inside {off : Nat} (h : off + n ≤ data.length) :
    bytesAt (writeBytes store loc data) (loc + off) n = (data.drop off).take n := by
  apply ext_getElem
  · simp
    omega
  · intro i hi _
    rw [bytesAt_length] at hi
    have hlt : off + i < data.length := by omega
    simp only [bytesAt, getElem_map, getElem_range, getElem_take, getElem_drop]
    rw [Nat.add_assoc]
    exact writeBytes_inside hlt

theorem bytesAt_writeBytes_outside {at' : Nat} (h : at' + n ≤ loc ∨ loc + data.length ≤ at') :
    bytesAt (writeBytes store loc data) at' n = bytesAt store at' n := by
  apply bytesAt_congr
  intro x hx hx'
  apply writeBytes_outside
  omega

/-! ### Moving and clearing -/

/-- `memmove`: the `n` bytes from `src` on are copied to `dst`, as they were before. -/
def moveBytes (store : Nat → UInt8) (dst src n : Nat) : Nat → UInt8 :=
  fun x => if dst ≤ x ∧ x < dst + n then store (src + (x - dst)) else store x

/-- `memset` with 0. -/
def clearBytes (store : Nat → UInt8) (loc n : Nat) : Nat → UInt8 :=
  fun x => if loc ≤ x ∧ x < loc + n then 0 else store x

theorem moveBytes_inside (h1 : dst ≤ x) (h2 : x < dst + n) :
    moveBytes store dst src n x = store (src + (x - dst)) :=
  if_pos ⟨h1, h2⟩

theorem moveBytes_outside (h : x < dst ∨ dst + n ≤ x) : moveBytes store dst src n x = store x :=
  if_neg (by omega)

theorem clearBytes_outside (h : x < loc ∨ loc + n ≤ x) : clearBytes store loc n x = store x :=
  if_neg (by omega)

/-! ### Stores that differ below an offset -/

/-- The bytes of `low` below `a`, and those of `store` from there on. -/
def splice (low store : Nat → UInt8) (a : Nat) : Nat → UInt8 :=
  fun x => if x < a then low x else store x

section Splice

variable {low : Nat → UInt8} {a : Nat}

theorem splice_of_lt (h : x < a) : splice low store a x = low x := if_pos h

theorem splice_of_le (h : a ≤ x) : splice low store a x = store x := if_neg (Nat.not_lt.2 h)

theorem eq_splice {store' : Nat → UInt8} (hlt : ∀ x < a, store' x = low x)
    (hle : ∀ x, a ≤ x → store' x = store x) : store' = splice low store a := by
  funext x
  unfold splice
  split
  · next hx => exact hlt x hx
  · exact hle x (by omega)

theorem splice_self (store : Nat → UInt8) (a : Nat) : splice store store a = store :=
  (eq_splice (fun _ _ => rfl) fun _ _ => rfl).symm

theorem bytesAt_splice (h : a ≤ loc) : bytesAt (splice low store a) loc n = bytesAt store loc n :=
  bytesAt_congr fun _ hx _ => splice_of_le (Nat.le_trans h hx)

theorem writeBytes_splice (h : a ≤ loc) :
    writeBytes (splice low store a) loc data = splice low (writeBytes store loc data) a := by
  refine eq_splice (fun x hx => ?_) fun x hx => ?_
  · rw [writeBytes_outside (by omega), splice_of_lt hx]
  · rw [writeBytes, writeBytes, splice_of_le hx]

theorem moveBytes_splice (hd : a ≤ dst) (hs : a ≤ src) :
    moveBytes (splice low store a) dst src n = splice low (moveBytes store dst src n) a := by
  refine eq_splice (fun x hx => ?_) fun x hx => ?_
  · rw [moveBytes_outside (by omega), splice_of_lt hx]
  · rw [moveBytes, moveBytes, splice_of_le hx, splice_of_le (by omega)]

theorem clearBytes_splice (h : a ≤ loc) :
    clearBytes (splice low store a) loc n = splice low (clearBytes store loc n) a := by
  refine eq_splice (fun x hx => ?_) fun x hx => ?_
  · rw [clearBytes_outside (by omega), splice_of_lt hx]
  · rw [clearBytes, clearBytes, splice_of_le hx]

end Splice

/-! ### Little-endian numbers -/

/-- The number with these bytes, the lowest one first. -/
def leNat : List UInt8 → Nat
  | [] => 0
  | x :: xs => x.toNat + 256 * leNat xs

/-- The `n` low bytes of a number, the lowest one first. -/
def leBytes : Nat → Nat → List UInt8
  | 0, _ => []
  | n + 1, v => UInt8.ofNat v :: leBytes n (v / 256)

@[simp] theorem leBytes_length : ∀ n v, (leBytes n v).length = n
  | 0, _ => rfl
  | n + 1, v => by rw [leBytes, length_cons, leBytes_length n]

theorem leNat_lt : ∀ bytes : List UInt8, leNat bytes < 256 ^ bytes.length
  | [] => Nat.one_pos
  | b :: bytes => by
    have ih := leNat_lt bytes
    have hb := b.toNat_lt
    rw [leNat, length_cons]
    omega

theorem leNat_leBytes : ∀ n v, v < 256 ^ n → leNat (leBytes n v) = v
  | 0, v, h => by
    exact (Nat.lt_one_iff.mp h).symm
  | n + 1, v, h => by
    have hdiv : v / 256 < 256 ^ n := by
      omega
    rw [leBytes, leNat, leNat_leBytes n _ hdiv, UInt8.toNat_ofNat']
    omega

end Ocfs2Tools
