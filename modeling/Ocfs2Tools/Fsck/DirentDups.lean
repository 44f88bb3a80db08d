import Ocfs2Tools.Dir.Dirent

/-!
# Duplicate names in pass 2

`fix_dirent_dups` renames an entry whose name was seen before in the directory. It tries the
name with more and more underscores behind it, up to `rec_len` characters, although the name
only has the record without its first 12 bytes; then it puts underscores over the name, from
its end. The names are compared up to their first NUL.
-/

namespace Ocfs2Tools.Pass2

open Dir List

variable {b : Buf} {a n lo hi size k m j : Nat} {buf name : Nat → UInt8} {s : List UInt8}
  {seen : List (List UInt8)} {is : List Nat}

/-! ### The function -/

/-- `o2fsck_strings_bytes_allocated`; a `struct string_entry` takes 40 bytes and the string. -/
def stringsBytesAllocated (seen : List (List UInt8)) : Nat :=
  (seen.map fun s => 40 + s.length).sum

/-- All is forgotten when there is too much of it. -/
def keptStrings (seen : List (List UInt8)) : List (List UInt8) :=
  if 4 * 1024 * 1024 < stringsBytesAllocated seen then [] else seen

/-- The string that `strlen` sees in a buffer. -/
def cString (size : Nat) (buf : Nat → UInt8) : List UInt8 := (bytesAt buf 0 size).takeWhile (· != 0)

/-- Put underscores at the given places, one after the other, until the name is unique. -/
def mangle (seen : List (List UInt8)) (size : Nat) : (Nat → UInt8) → List Nat → Option (List UInt8)
  | _, [] => none
  | buf, i :: is =>
    let buf := writeBytes buf i [95]
    if cString size buf ∈ seen then mangle seen size buf is else some (cString size buf)

/-- The new name: both loops over the buffer of `rec_len + 1` bytes. -/
def newName (seen : List (List UInt8)) (b : Buf) (a : Nat) : Option (List UInt8) :=
  mangle seen (recLen b a + 1) (fun i => if i < nameLen b a then b (a + dirMemberLen + i) else 0)
    (range' (nameLen b a) (recLen b a - nameLen b a) ++ (range (nameLen b a)).reverse)

/-- The name of the entry at `a`. -/
def direntName (b : Buf) (a : Nat) : List UInt8 := bytesAt b (a + dirMemberLen) (nameLen b a)

/-- `o2fsck_strings_exists` for the name of the entry. -/
def nameExists (seen : List (List UInt8)) (b : Buf) (a : Nat) : Bool :=
  direntName b a ∈ keptStrings seen

theorem nameExists_iff : nameExists seen b a ↔ direntName b a ∈ keptStrings seen :=
  decide_eq_true_iff

/-- `fix_dirent_dups`, with the question answered yes: the names seen, and the block. -/
def fixDirentDups (seen : List (List UInt8)) (b : Buf) (a : Nat) : List (List UInt8) × Buf :=
  let seen := keptStrings seen
  if direntName b a ∈ seen then
    match newName seen b a with
    | none => (seen, b)
    | some s =>
      -- `name_len` has 8 bits
      (s :: seen, writeBytes (setNameLen b a s.length) (a + dirMemberLen)
        (s.take (s.length % 256)))
  else (direntName b a :: seen, b)

/-! ### The names that are tried -/

/-- The name with `k` underscores behind it, as far as it is compared. -/
def extended (name : List UInt8) (k : Nat) : List UInt8 :=
  (name ++ replicate k 95).takeWhile (· != 0)

/-- The name in a buffer of zeros, with underscores from `lo` to `hi`. -/
def masked (name : Nat → UInt8) (n lo hi : Nat) : Nat → UInt8 :=
  fun i => if lo ≤ i ∧ i < hi then 95 else if i < n then name i else 0

theorem masked_write {i lo' hi' : Nat} (h : ∀ x, x = i ∨ lo ≤ x ∧ x < hi ↔ lo' ≤ x ∧ x < hi') :
    writeBytes (masked name n lo hi) i [95] = masked name n lo' hi' := by
  funext x
  by_cases hx : x = i
  · subst hx
    rw [masked, if_pos ((h x).1 (.inl rfl))]
    exact writeBytes_inside (i := 0) (by simp)
  · rw [writeBytes_outside (by simp; omega), masked, masked]
    congr 1
    rw [eq_iff_iff, ← h x]
    exact (or_iff_right hx).symm

theorem extended_eq (k : Nat) (h : 0 ∉ s) : extended s k = s ++ replicate k 95 := by
  apply takeWhile_eq_self_iff.2
  intro x hx
  rw [bne_iff_ne]
  rintro rfl
  rcases mem_append.1 hx with hx | hx
  · exact h hx
  · exact absurd (eq_of_mem_replicate hx) (by decide)

theorem takeWhile_nul (t : List UInt8) (h : 0 ∈ s) :
    (s ++ t).takeWhile (· != 0) = s.takeWhile (· != 0) := by
  rw [takeWhile_append, if_neg]
  intro hlen
  have hpre : s.takeWhile (· != 0) <+: s := takeWhile_prefix _
  have hall := takeWhile_eq_self_iff.1 (hpre.eq_of_length hlen) 0 h
  cases hall

theorem bytesAt_const {loc : Nat} {v : UInt8} (h : ∀ x, loc ≤ x → x < loc + n → buf x = v) :
    bytesAt buf loc n = replicate n v := by
  refine eq_replicate_iff.2 ⟨bytesAt_length .., fun x hx => ?_⟩
  obtain ⟨i, hi, rfl⟩ := mem_map.1 hx
  exact h _ (by omega) (by have := mem_range.1 hi; omega)

theorem cString_masked (hlo : lo ≤ n) (hhi : n ≤ hi) (hsize : hi < size) :
    cString size (masked name n lo hi) = extended (bytesAt name 0 lo) (hi - lo) := by
  have hbytes : bytesAt (masked name n lo hi) 0 size =
      bytesAt name 0 lo ++ replicate (hi - lo) 95 ++ replicate (size - hi) 0 := by
    rw [bytesAt_split _ 0 (Nat.le_of_lt hsize), bytesAt_split _ 0 (Nat.le_trans hlo hhi)]
    congr 2
    · exact bytesAt_congr fun x _ hx => by rw [masked, if_neg (by omega), if_pos (by omega)]
    · exact bytesAt_const fun x h1 h2 => if_pos (by omega)
    · exact bytesAt_const fun x h1 _ => by rw [masked, if_neg (by omega), if_neg (by omega)]
  rw [cString, hbytes, takeWhile_append]
  split
  next hlen =>
    rw [takeWhile_replicate, if_neg (by simp), append_nil]
    exact Eq.symm (IsPrefix.eq_of_length (by exact takeWhile_prefix _) hlen)
  next => rfl

theorem mangle_not_mem (h : mangle seen size buf is = some s) : s ∉ seen := by
  induction is generalizing buf with
  | nil => cases h
  | cons i is ih =>
    rw [mangle] at h
    split at h
    · exact ih h
    · cases h
      assumption

/-- The first loop, with `m` turns left: some name with underscores is found, or none. -/
theorem mangle_append (hsize : n + k + m < size)
    (h : mangle seen size (masked name n n (n + k)) (range' (n + k) m ++ is) = some s) :
    (∃ k', k < k' ∧ s = extended (bytesAt name 0 n) k' ∧
      ∀ i, k < i → i < k' → extended (bytesAt name 0 n) i ∈ seen) ∨
    (∀ i, k < i → i ≤ k + m → extended (bytesAt name 0 n) i ∈ seen) ∧
      mangle seen size (masked name n n (n + k + m)) is = some s := by
  induction m generalizing k with
  | zero => exact .inr ⟨fun i h1 h2 => by omega, h⟩
  | succ m ih =>
    have hup : writeBytes (masked name n n (n + k)) (n + k) [95] = masked name n n (n + (k + 1)) :=
      masked_write fun x => by omega
    rw [range'_succ, cons_append, mangle, hup,
      cString_masked (Nat.le_refl n) (by omega) (by omega : n + (k + 1) < size),
      Nat.add_sub_cancel_left, Nat.add_assoc n k 1] at h
    split at h
    next hmem =>
      have hin : ∀ i, k < i → ¬k + 1 < i → extended (bytesAt name 0 n) i ∈ seen := by
        intro i h1 h2
        obtain rfl : i = k + 1 := by omega
        exact hmem
      rcases ih (by omega) h with ⟨k', h1, hs, hseen⟩ | ⟨hseen, hrest⟩
      · refine .inl ⟨k', by omega, hs, fun i h3 h4 => ?_⟩
        by_cases h5 : k + 1 < i
        · exact hseen i h5 h4
        · exact hin i h3 h5
      · refine .inr ⟨fun i h3 h4 => ?_, ?_⟩
        · by_cases h5 : k + 1 < i
          · exact hseen i h5 (by omega)
          · exact hin i h3 h5
        · rw [show n + k + (m + 1) = n + (k + 1) + m by omega]
          exact hrest
    next hmem =>
      cases h
      exact .inl ⟨k + 1, by omega, rfl, fun i h1 h2 => by omega⟩

/-- The second loop, from the place before `j` down. -/
theorem mangle_over (hj : j ≤ n) (hhi : n ≤ hi) (hsize : hi < size)
    (h : mangle seen size (masked name n j hi) (range j).reverse = some s) :
    ∃ i < j, s = extended (bytesAt name 0 i) (hi - i) := by
  induction j with
  | zero => cases h
  | succ j ih =>
    have hup : writeBytes (masked name n (j + 1) hi) j [95] = masked name n j hi :=
      masked_write fun x => by omega
    rw [range_succ, reverse_append, reverse_singleton, singleton_append, mangle, hup,
      cString_masked (by omega : j ≤ n) hhi hsize] at h
    split at h
    · obtain ⟨i, hi', hs⟩ := ih (by omega) h
      exact ⟨i, by omega, hs⟩
    · cases h
      exact ⟨j, by omega, rfl⟩

/-! ### When the new name is right -/

/-- Some name with underscores that is not in use fits the record and `name_len`. -/
def RoomFor (seen : List (List UInt8)) (b : Buf) (a : Nat) : Prop :=
  ∃ k, 0 < k ∧ extended (direntName b a) k ∉ seen ∧ (extended (direntName b a) k).length < 256 ∧
    dirMemberLen + (extended (direntName b a) k).length ≤ recLen b a

/-- The entry has the new name `s`: it fits the record, was not seen before, and nothing else
    has changed. -/
structure Renamed (seen : List (List UInt8)) (b b' : Buf) (a : Nat) (s : List UInt8) : Prop where
  name : direntName b' a = s
  fits : dirRecLen (nameLen b' a) ≤ recLen b' a
  fresh : s ∉ seen
  frame : ∀ x, x < a ∨ a + recLen b a ≤ x → b' x = b x

theorem newName_cases (hle : nameLen b a < recLen b a) (h : newName seen b a = some s) :
    (∃ k, 0 < k ∧ s = extended (direntName b a) k ∧
      ∀ i, 0 < i → i < k → extended (direntName b a) i ∈ seen) ∨
    (∀ i, 0 < i → i ≤ recLen b a - nameLen b a → extended (direntName b a) i ∈ seen) ∧
      s.length = recLen b a := by
  have hfresh := mangle_not_mem h
  have hstart : (fun i => if i < nameLen b a then b (a + dirMemberLen + i) else 0) =
      masked (fun i => b (a + dirMemberLen + i)) (nameLen b a) (nameLen b a) (nameLen b a + 0) := by
    funext i
    exact (if_neg (by omega : ¬(nameLen b a ≤ i ∧ i < nameLen b a + 0))).symm
  have hname : direntName b a = bytesAt (fun i => b (a + dirMemberLen + i)) 0 (nameLen b a) := by
    simp [direntName, bytesAt]
  rw [newName, hstart] at h
  rw [hname]
  rcases mangle_append (by omega) h with ⟨k, h1, hs, hseen⟩ | ⟨hseen, hrest⟩
  · exact .inl ⟨k, h1, hs, hseen⟩
  · refine .inr ⟨fun i h3 h4 => hseen i h3 (by omega), ?_⟩
    obtain ⟨i, hi, hs⟩ := mangle_over (Nat.le_refl _) (by omega) (by omega) hrest
    by_cases hnul : 0 ∈ bytesAt (fun i => b (a + dirMemberLen + i)) 0 i
    · -- the name still ends at its first NUL, where it was seen already
      have hone := hseen 1 (by omega) (by omega)
      rw [extended, bytesAt_split _ 0 (Nat.le_of_lt hi), append_assoc, takeWhile_nul _ hnul,
        ← takeWhile_nul (replicate (nameLen b a + 0 + (recLen b a - nameLen b a) - i) 95) hnul,
        ← extended, ← hs] at hone
      exact absurd hone hfresh
    · rw [hs, extended_eq _ hnul, length_append, length_replicate, bytesAt_length]
      omega

theorem short_iff (hok : EntryOk b a) (h : newName seen b a = some s) :
    (s.length < 256 ∧ dirMemberLen + s.length ≤ recLen b a) ↔ RoomFor seen b a := by
  have hm : dirMemberLen = 12 := rfl
  have hname := hok.name
  unfold dirRecLen at hname
  have hlen : (direntName b a).length = nameLen b a := bytesAt_length ..
  have hfresh := mangle_not_mem h
  rcases newName_cases (by omega) h with ⟨k, h1, rfl, hseen⟩ | ⟨hseen, hs⟩
  · refine ⟨fun ⟨h3, h4⟩ => ⟨k, h1, hfresh, h3, h4⟩, fun ⟨k', h3, hfree, h5, h6⟩ => ?_⟩
    by_cases hnul : 0 ∈ direntName b a
    · rw [extended, takeWhile_nul _ hnul] at h5 h6 ⊢
      exact ⟨h5, h6⟩
    · have hle : k ≤ k' := Nat.le_of_not_lt fun hlt => hfree (hseen k' h3 hlt)
      rw [extended_eq _ hnul, length_append, length_replicate] at h5 h6 ⊢
      omega
  · refine ⟨fun h3 => by omega, fun ⟨k, h3, hfree, h5, h6⟩ => absurd ?_ hfree⟩
    by_cases hnul : 0 ∈ direntName b a
    · have hone := hseen 1 (by omega) (by omega)
      rw [extended, takeWhile_nul _ hnul] at hone ⊢
      exact hone
    · rw [extended_eq _ hnul, length_append, length_replicate] at h6
      exact hseen k h3 (by omega)

/-- **A duplicate that is renamed** gets its new name as it should exactly if a name with
    underscores that is not in use fits. -/
theorem fixDirentDups_renamed_iff (hok : EntryOk b a)
    (hsmall : stringsBytesAllocated seen ≤ 4 * 1024 * 1024) (hdup : direntName b a ∈ seen)
    (hnew : newName seen b a = some s) :
    Renamed seen b (fixDirentDups seen b a).2 a s ↔ RoomFor seen b a := by
  rw [← short_iff hok hnew]
  have hm : dirMemberLen = 12 := rfl
  have hal := hok.aligned
  have hrun : (fixDirentDups seen b a).2 = writeBytes (setNameLen b a s.length)
      (a + dirMemberLen) (s.take (s.length % 256)) := by
    simp only [fixDirentDups, keptStrings, if_neg (Nat.not_lt.2 hsmall), if_pos hdup, hnew]
  generalize hb' : (fixDirentDups seen b a).2 = b' at hrun
  have htake : (s.take (s.length % 256)).length = s.length % 256 := by
    rw [length_take]
    omega
  have hout : ∀ x, x < a + 10 ∨ x = a + 11 ∨ a + dirMemberLen + s.length % 256 ≤ x →
      b' x = b x := by
    intro x hx
    rw [hrun, writeBytes_outside (by omega), setNameLen_outside (by omega)]
  have hlen : nameLen b' a = s.length % 256 := by
    rw [← nameLen_setNameLen_mod b a, hrun, nameLen, writeBytes_outside (by omega), nameLen]
  have hbytes : direntName b' a = s.take (s.length % 256) := by
    rw [direntName, hlen, hrun]
    exact (bytesAt_writeBytes_inside (show 0 + _ ≤ _ by omega)).trans
      (take_of_length_le (show (s.take _).length ≤ _ by omega))
  have hrec : recLen b' a = recLen b a := by
    rw [recLen, hout (a + 8) (by omega), hout (a + 9) (by omega), recLen]
  constructor
  · intro h
    have hle : s.length < 256 := by
      have := congrArg length (hbytes.symm.trans h.name)
      omega
    have hfits := h.fits
    unfold dirRecLen at hfits
    omega
  · rintro ⟨hlt, hle⟩
    rw [Nat.mod_eq_of_lt hlt] at hlen hbytes hout
    refine ⟨?_, ?_, mangle_not_mem hnew, fun x hx => hout x (by omega)⟩
    · rw [hbytes, take_length]
    · rw [hlen, hrec]
      unfold dirRecLen
      omega

/-- An entry with the name `name`, which takes `r` bytes. -/
def namedEntry (r : UInt8) (name : List UInt8) : Buf :=
  writeBytes (fun _ => 0) 0 ([7, 0, 0, 0, 0, 0, 0, 0, r, 0, UInt8.ofNat name.length, 1] ++ name)

/-- The name `abcd` fills its record; the underscore is written to the next one. -/
theorem fixDirentDups_overflows : EntryOk (namedEntry 16 [97, 98, 99, 100]) 0 ∧
    nameLen (fixDirentDups [[97, 98, 99, 100]] (namedEntry 16 [97, 98, 99, 100]) 0).2 0 = 5 ∧
    dirRecLen 5 = 20 ∧ namedEntry 16 [97, 98, 99, 100] 16 = 0 ∧
    (fixDirentDups [[97, 98, 99, 100]] (namedEntry 16 [97, 98, 99, 100]) 0).2 16 = 95 :=
  ⟨⟨by decide, by decide, by decide⟩, by decide, by decide, by decide, by decide⟩

theorem fixDirentDups_renamed_short :
    Renamed [[97]] (namedEntry 16 [97]) (fixDirentDups [[97]] (namedEntry 16 [97]) 0).2 0
      [97, 95] :=
  (fixDirentDups_renamed_iff ⟨by decide, by decide, by decide⟩ (by decide) (by decide)
    (by decide)).2 ⟨1, by decide, by decide, by decide, by decide⟩

end Ocfs2Tools.Pass2
