import Ocfs2Tools.Dir.Rebalance

/-!
# The hash a leaf is split at

`ocfs2_dx_dir_find_leaf_split` is right if the entries all have one hash. Otherwise it takes
the first entry from the middle on that is above the start of the cluster. If more than half
of the entries have the smallest hash, and the cluster starts below it, this is the smallest
hash itself: the split moves every entry, and makes no room for a hash at or above it.
-/

namespace Ocfs2Tools.DxDir

open List

variable {es l : List DxEntry} {leafCpos hash m : Nat}

/-! ### Sorted entries -/

theorem sortLt_weakOrder : HeapSort.WeakOrder sortLt where
  asymm := by
    intro a b h h'
    unfold sortLt at h h'
    omega
  trans := by
    unfold sortLt at *
    omega

theorem sortEntries_perm (es : List DxEntry) : (sortEntries es).Perm es :=
  HeapSort.heapSort_perm sortLt es

theorem sortEntries_sorted (es : List DxEntry) :
    (sortEntries es).Pairwise fun a b => a.major ≤ b.major := by
  apply (HeapSort.heapSort_sorted sortLt_weakOrder es).imp
  intro a b h
  unfold sortLt at h
  omega

/-- **`ocfs2_sort` sorts** by both hashes, and no entry is lost. -/
theorem sortEntries_sorts (es : List DxEntry) :
    (sortEntries es).Perm es ∧ (sortEntries es).Pairwise fun a b => ¬sortLt b a :=
  ⟨sortEntries_perm es, HeapSort.heapSort_sorted sortLt_weakOrder es⟩

theorem mem_sortEntries {e : DxEntry} : e ∈ sortEntries es ↔ e ∈ es :=
  (sortEntries_perm es).mem_iff

theorem dxLeafSameMajor_iff : ∀ {es},
    dxLeafSameMajor es = true ↔ ∀ e ∈ es, ∀ e' ∈ es, e.major = e'.major
  | [] => by simp [dxLeafSameMajor]
  | [e] => by simp [dxLeafSameMajor]
  | e :: e' :: rest => by
    have ih := @dxLeafSameMajor_iff (e' :: rest)
    rw [dxLeafSameMajor, Bool.and_eq_true, beq_iff_eq, ih]
    constructor
    · rintro ⟨heq, hall⟩
      have hhead : ∀ x ∈ e :: e' :: rest, x.major = e'.major :=
        forall_mem_cons.mpr ⟨heq, fun x hx => hall x hx e' mem_cons_self⟩
      intro x hx y hy
      rw [hhead x hx, hhead y hy]
    · intro hall
      refine ⟨hall e mem_cons_self e' (by simp), ?_⟩
      intro x hx y hy
      exact hall x (mem_cons_of_mem _ hx) y (mem_cons_of_mem _ hy)

theorem smallest_first {l : List DxEntry} {j} (hs : (l.Pairwise fun a b => a.major ≤ b.major))
    (hall : (∀ e ∈ l, m ≤ e.major)) :
    ((∃ e, l[j]? = some e ∧ e.major = m) ↔ j < (l.filter fun e => e.major = m).length) := by
  induction l generalizing j with
  | nil => simp
  | cons a rest ih =>
    obtain ⟨ha, hrest⟩ := pairwise_cons.mp hs
    have hall' : ∀ e ∈ rest, m ≤ e.major := fun e he => hall e (mem_cons_of_mem _ he)
    by_cases hm : a.major = m
    · rw [filter_cons_of_pos (by simpa using hm), length_cons]
      cases j with
      | zero =>
        simp only [getElem?_cons_zero, Nat.zero_lt_succ, iff_true]
        exact ⟨a, rfl, hm⟩
      | succ j =>
        rw [getElem?_cons_succ, ih hrest hall']
        omega
    · -- the first one is larger already, so all of them are
      have hlt : m < a.major := Nat.lt_of_le_of_ne (hall a mem_cons_self) (Ne.symm hm)
      have hnone : ∀ e ∈ a :: rest, ¬e.major = m := by
        intro e he heq
        rcases mem_cons.mp he with rfl | he
        · exact hm heq
        · have := ha e he
          omega
      rw [filter_eq_nil_iff.mpr (by simpa using hnone), length_nil]
      constructor
      · rintro ⟨e, he, heq⟩
        exact absurd heq (hnone e (mem_of_getElem? he))
      · omega

/-! ### The split -/

/-- The split would move everything: more than half of the entries, but not all of them, have the
    smallest hash `m`, which is above the start of the cluster and not above the new hash. -/
def Stuck (es : List DxEntry) (leafCpos hash : Nat) : Prop :=
  ∃ m, leafCpos < m ∧ m ≤ hash ∧ (∀ e ∈ es, m ≤ e.major) ∧ (∃ e ∈ es, e.major ≠ m) ∧
    es.length / 2 < (es.filter fun e => e.major = m).length

structure SplitAt (es : List DxEntry) (leafCpos hash split : Nat) : Prop where
  above : leafCpos < split
  lt : split < 4294967296
  reached : split ≤ hash ∨ ∃ e ∈ es, split ≤ e.major
  goes : hash < split → ∃ e ∈ es, split ≤ e.major
  stuck : Stuck es leafCpos hash ↔ split ≤ hash ∧ ∀ e ∈ es, split ≤ e.major

theorem splitAt_same {val : Nat} (hne : es ≠ []) (hval : ∀ e ∈ es, e.major = val)
    (hlo : leafCpos ≤ val) (hh : leafCpos ≤ hash) (hne' : val ≠ hash) (hvlt : val < 4294967296)
    (hlt : hash < 4294967296) : SplitAt es leafCpos hash (if val = leafCpos then addW 32 leafCpos 1
      else if hash < val then val else hash) := by
  obtain ⟨e, he⟩ := exists_mem_of_ne_nil es hne
  have hnot : ¬Stuck es leafCpos hash := by
    rintro ⟨m, _, _, _, ⟨e', he', hm⟩, hcount⟩
    obtain ⟨x, hx⟩ := exists_mem_of_length_pos (lt_of_le_of_lt (Nat.zero_le _) hcount)
    obtain ⟨hx, hxm⟩ := mem_filter.mp hx
    have h1 := hval x hx
    have h2 := hval e' he'
    have h3 : x.major = m := by simpa using hxm
    omega
  have he' := hval e he
  by_cases hc : val = leafCpos
  · have hadd : addW 32 leafCpos 1 = leafCpos + 1 := addW_32_eq (by omega)
    rw [if_pos hc]
    refine ⟨by omega, by omega, .inl (by omega), by omega, ⟨fun h => absurd h hnot, ?_⟩⟩
    rintro ⟨_, hall⟩
    have := hall e he
    omega
  · rw [if_neg hc]
    split
    · refine ⟨by omega, hvlt, .inr ⟨e, he, by omega⟩, fun _ => ⟨e, he, by omega⟩,
        ⟨fun h => absurd h hnot, ?_⟩⟩
      omega
    · refine ⟨by omega, hlt, .inl (le_refl _), fun h => absurd h (lt_irrefl _),
        ⟨fun h => absurd h hnot, ?_⟩⟩
      rintro ⟨_, hall⟩
      have := hall e he
      omega

theorem splitAt_middle (hlo : ∀ e ∈ es, leafCpos ≤ e.major) (hb : ∀ e ∈ es, e.major < 4294967296)
    (hdiff : ∃ e ∈ es, ∃ e' ∈ es, e.major ≠ e'.major) :
    ∃ e, ((sortEntries es).drop ((sortEntries es).length / 2)).find?
      (fun e => leafCpos < e.major) = some e ∧ SplitAt es leafCpos hash e.major := by
  have hs := sortEntries_sorted es
  have hlen : (sortEntries es).length = es.length := (sortEntries_perm es).length_eq
  have hmem : ∀ e, e ∈ sortEntries es ↔ e ∈ es := fun e => mem_sortEntries
  have hcount : ∀ m, ((sortEntries es).filter fun e => e.major = m).length =
      (es.filter fun e => e.major = m).length := fun m => ((sortEntries_perm es).filter _).length_eq
  generalize sortEntries es = l at hs hlen hmem hcount
  -- the last entry is above the start of the cluster
  have hex : ∃ e ∈ l.drop (l.length / 2), leafCpos < e.major := by
    obtain ⟨a, ha, b, hb', hab⟩ := hdiff
    have hpos : 0 < l.length := by
      rw [hlen]
      exact length_pos_of_mem ha
    have hlast : ∀ e ∈ l, e.major ≤ (l[l.length - 1]).major := by
      intro e he
      obtain ⟨k, hk, rfl⟩ := getElem_of_mem he
      by_cases hkl : k = l.length - 1
      · subst hkl
        exact le_refl _
      · exact pairwise_iff_getElem.mp hs k (l.length - 1) hk (by omega) (by omega)
    refine ⟨l[l.length - 1], ?_, ?_⟩
    · rw [mem_drop_iff_getElem]
      exact ⟨l.length - 1 - l.length / 2, by omega, by congr 1; omega⟩
    · have h1 := hlast a ((hmem a).mpr ha)
      have h2 := hlast b ((hmem b).mpr hb')
      have h3 := hlo a ha
      have h4 := hlo b hb'
      omega
  obtain ⟨x, hx, hxlt⟩ := hex
  cases hfind : (l.drop (l.length / 2)).find? fun e => leafCpos < e.major with
  | none =>
    have := find?_eq_none.mp hfind x hx
    simp [hxlt] at this
  | some e =>
    have hed : e ∈ l.drop (l.length / 2) := mem_of_find?_eq_some hfind
    have he : e ∈ es := (hmem e).mp (mem_of_mem_drop hed)
    have habove : leafCpos < e.major := by
      have := find?_some hfind
      simpa using this
    refine ⟨e, rfl, habove, hb e he, .inr ⟨e, he, le_refl _⟩, fun _ => ⟨e, he, le_refl _⟩, ?_⟩
    have hmid : l.length / 2 < l.length := by
      have : 0 < l.length := length_pos_of_mem (mem_of_mem_drop hed)
      omega
    constructor
    · rintro ⟨m, hm, hmh, hall, _, hmore⟩
      -- the middle entry has the smallest hash, and it is the first one looked at
      have hall' : ∀ e ∈ l, m ≤ e.major := fun e he => hall e ((hmem e).mp he)
      rw [← hcount, ← hlen] at hmore
      obtain ⟨y, hy, hym⟩ := (smallest_first hs hall').mpr hmore
      have hdrop : l.drop (l.length / 2) = y :: l.drop (l.length / 2 + 1) := by
        rw [drop_eq_getElem_cons hmid]
        congr 1
        exact Option.some.inj ((getElem?_eq_getElem hmid).symm.trans hy)
      have hey : y = e := by
        have hy' : leafCpos < y.major := by omega
        rw [hdrop, find?_cons_of_pos (by simpa using hy')] at hfind
        exact Option.some.inj hfind
      rw [← hey, hym]
      exact ⟨hmh, hall⟩
    · rintro ⟨hle, hall⟩
      refine ⟨e.major, habove, hle, hall, ?_, ?_⟩
      · obtain ⟨a, ha, b, hb', hab⟩ := hdiff
        by_cases haeq : a.major = e.major
        · exact ⟨b, hb', by omega⟩
        · exact ⟨a, ha, haeq⟩
      · have hall' : ∀ x ∈ l, e.major ≤ x.major := fun x hx => hall x ((hmem x).mp hx)
        rw [← hcount, ← hlen]
        apply (smallest_first hs hall').mp
        refine ⟨l[l.length / 2], getElem?_eq_getElem hmid, ?_⟩
        -- the middle entry is no larger than `e`, which comes at it or behind it
        have hge := hall' _ (getElem_mem hmid)
        obtain ⟨k, hk, hke⟩ := mem_drop_iff_getElem.mp hed
        by_cases hk0 : k = 0
        · subst hk0
          congr 1
        · have hle' := pairwise_iff_getElem.mp hs (l.length / 2) (l.length / 2 + k) hmid
            (by omega) (by omega)
          rw [hke] at hle'
          omega

/-- What `ocfs2_dx_dir_find_leaf_split` returns for the entries of a leaf whose cluster
    starts at `leafCpos`: no space if all of them have the new hash, and a split hash
    otherwise. The assertion holds. -/
theorem dxDirFindLeafSplit_cases (hne : es ≠ []) (hlo : ∀ e ∈ es, leafCpos ≤ e.major)
    (hb : ∀ e ∈ es, e.major < 4294967296) (hh : leafCpos ≤ hash) (hlt : hash < 4294967296) :
    ((∀ e ∈ es, e.major = hash) ∧
      dxDirFindLeafSplit (sortEntries es) leafCpos hash = some (.error .dirNoSpace)) ∨
    ((∃ e ∈ es, e.major ≠ hash) ∧ ∃ split,
      dxDirFindLeafSplit (sortEntries es) leafCpos hash = some (.ok split) ∧
        SplitAt es leafCpos hash split) := by
  unfold dxDirFindLeafSplit
  split
  · next hsame =>
    have hlen : 0 < (sortEntries es).length := by
      rw [(sortEntries_perm es).length_eq]
      exact length_pos_of_ne_nil hne
    have hmem : (sortEntries es).getD 0 default ∈ es := by
      rw [← mem_sortEntries, getD_eq_getElem _ _ hlen]
      exact getElem_mem hlen
    have hval : ∀ e ∈ es, e.major = ((sortEntries es).getD 0 default).major := fun e he =>
      dxLeafSameMajor_iff.mp hsame e (mem_sortEntries.mpr he) _ (mem_sortEntries.mpr hmem)
    have hvlo := hlo _ hmem
    have hvb := hb _ hmem
    generalize ((sortEntries es).getD 0 default).major = val at hval hvlo hvb
    by_cases hv : val = hash
    · refine .inl ⟨fun e he => (hval e he).trans hv, ?_⟩
      rw [if_pos hv]
    · obtain ⟨e, he⟩ := exists_mem_of_ne_nil es hne
      refine .inr ⟨⟨e, he, fun heq => hv ((hval e he).symm.trans heq)⟩, _, ?_,
        splitAt_same hne hval hvlo hh hv hvb hlt⟩
      rw [if_neg hv]
      split
      · rfl
      · split
        · rfl
        · rfl
  · next hsame =>
    have hdiff : ∃ e ∈ es, ∃ e' ∈ es, e.major ≠ e'.major := by
      by_contra hnot
      apply hsame
      rw [dxLeafSameMajor_iff]
      intro e he e' he'
      by_contra hneq
      exact hnot ⟨e, mem_sortEntries.mp he, e', mem_sortEntries.mp he', hneq⟩
    obtain ⟨x, hfind, hsplit⟩ := @splitAt_middle es leafCpos hash hlo hb hdiff
    rw [hfind]
    refine .inr ⟨?_, x.major, rfl, hsplit⟩
    obtain ⟨a, ha, b, hb', hab⟩ := hdiff
    by_cases haeq : a.major = hash
    · exact ⟨b, hb', by omega⟩
    · exact ⟨a, ha, haeq⟩

end Ocfs2Tools.DxDir
